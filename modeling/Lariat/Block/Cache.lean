import Mathlib.Data.List.FinRange
import Mathlib.Data.BitVec
import Mathlib.Logic.Function.Basic
import Lariat.Foundation.Runs

/-! The block layer: a write-through cache of single sectors over the block devices, the
transfers of the ATA driver below it, and when the entries are what the devices hold. -/
namespace Lariat.Block
open Foundation.Runs List Function BitVec

abbrev Sector := Fin 512 → BitVec 8

/-- `bcache_ent_t`; an entry of age 0 is invalid. -/
structure Entry where
  dev : Nat := 0
  lba : BitVec 64 := 0
  age : BitVec 32 := 0
  data : Sector := fun _ => 0

/-- `BCACHE_ENTRIES`. -/
@[irreducible] def entries : Nat := 512

theorem entries_pos : 0 < entries := by
  unfold entries
  decide

structure Cache where
  slot : Fin entries → Entry
  clock : BitVec 32

/-- The static array after `block_init`. -/
def blockInit : Cache := { slot := fun _ => {}, clock := 1 }

namespace Cache

/-- `bcache_find`. -/
def find (c : Cache) (dev : Nat) (lba : BitVec 64) : Option (Fin entries) :=
  (List.finRange entries).find? fun i =>
    (c.slot i).age ≠ 0 ∧ (c.slot i).dev = dev ∧ (c.slot i).lba = lba

/-- The scan of `bcache_victim`: the first invalid slot, or the one used least recently. -/
def victimFrom (c : Cache) : List (Fin entries) → Fin entries → BitVec 32 → Fin entries
  | [], best, _ => best
  | i :: is, best, bestAge =>
    if (c.slot i).age = 0 then i
    else if (c.slot i).age < bestAge then c.victimFrom is i (c.slot i).age
    else c.victimFrom is best bestAge

def victim (c : Cache) : Fin entries :=
  c.victimFrom (List.finRange entries) ⟨0,entries_pos⟩ 0xFFFFFFFF

/-- Fill a slot and stamp it. -/
def fill (c : Cache) (i : Fin entries) (dev : Nat) (lba : BitVec 64) (data : Sector) : Cache :=
  { slot := update c.slot i { dev := dev, lba := lba, age := c.clock+1, data := data }
    clock := c.clock+1 }

/-- `bcache_put`. -/
def put (c : Cache) (dev : Nat) (lba : BitVec 64) (data : Sector) : Cache :=
  c.fill ((c.find dev lba).getD c.victim) dev lba data

/-- A hit renews the stamp of its slot. -/
def touch (c : Cache) (i : Fin entries) : Cache :=
  c.fill i (c.slot i).dev (c.slot i).lba (c.slot i).data

/-- The loops that put consecutive sectors. -/
def putAll (c : Cache) (dev : Nat) (lba : BitVec 64) : List Sector → Cache
  | [] => c
  | x :: xs => (c.put dev lba x).putAll dev (lba+1) xs

end Cache

/-- What the block layer asks of a `device_t`. -/
structure Device where
  isBlock : Bool := true
  canRead : Bool := true
  canWrite : Bool := true

/-- How a device answers one transfer: the sectors it moved, and what it returned. -/
structure Answer where
  moved : Nat
  result : Int

/-- The conversion of an `ssize_t` to `int`. -/
def toInt (r : Int) : Int := (BitVec.ofInt 32 r).toInt

/-- The contents of the devices. -/
abbrev Disk := Nat → BitVec 64 → Sector

/-- Consecutive sectors are written. -/
def Disk.store (disk : Disk) (dev : Nat) (lba : BitVec 64) : List Sector → Disk
  | [] => disk
  | x :: xs => Disk.store (update disk dev (update (disk dev) lba x)) dev (lba+1) xs

section

variable (devs : Nat → Device)

/-- `raw_read` of `n` sectors into place `i` of the buffer. -/
def rawRead (disk : Disk) (dev : Nat) (lba : BitVec 64) (out : Nat → Sector) (i n : Nat)
    (a : Answer) : Int × (Nat → Sector) :=
  if (devs dev).isBlock ∧ (devs dev).canRead then
    (toInt a.result,fun j => if i ≤ j ∧ j < i+min a.moved n then disk dev (lba+.ofNat 64 j) else out j)
  else (-1,out)

/-- `raw_write`. -/
def rawWrite (disk : Disk) (dev : Nat) (lba : BitVec 64) (data : List Sector) (a : Answer) :
    Int × Disk :=
  if (devs dev).isBlock ∧ (devs dev).canWrite then
    (toInt a.result,disk.store dev lba (data.take a.moved))
  else (-1,disk)

structure State where
  disk : Disk
  cache : Cache

/-- How many sectors from place `i` on are not cached, that one included. -/
def missRun (c : Cache) (dev : Nat) (lba : BitVec 64) (i count : Nat) : Nat :=
  1+((List.range (count-i-1)).takeWhile fun k =>
    (c.find dev (lba+.ofNat 64 (i+1+k))).isNone).length

/-- The loop of `block_read`; each round moves on by a sector at least. The transfer at place
`i` of the buffer is answered by `ans i`. -/
def readLoop (dev : Nat) (lba : BitVec 64) (count : Nat) (ans : Nat → Nat → Answer) :
    Nat → Nat → (Nat → Sector) → State → Int × (Nat → Sector) × State
  | 0, _, out, s => (0,out,s)
  | fuel+1, i, out, s =>
    if count ≤ i then (0,out,s)
    else match s.cache.find dev (lba+.ofNat 64 i) with
      | some slot => readLoop dev lba count ans fuel (i+1)
          (update out i (s.cache.slot slot).data) { s with cache := s.cache.touch slot }
      | none =>
        let run := missRun s.cache dev lba i count
        match rawRead devs s.disk dev lba out i run (ans i run) with
        | (r,out) =>
          if r < 0 then (-1,out,s)
          else
            let got := (List.range run).map fun k => out (i+k)
            readLoop dev lba count ans fuel (i+run) out
              { s with cache := s.cache.putAll dev (lba+.ofNat 64 i) got }

/-- `block_read` into a buffer that holds `out`. -/
def blockRead (dev : Nat) (lba : BitVec 64) (count : Nat) (out : Nat → Sector)
    (ans : Nat → Nat → Answer) (s : State) : Int × (Nat → Sector) × State :=
  if (devs dev).isBlock then readLoop devs dev lba count ans count 0 out s else (-1,out,s)

/-- `block_write`. -/
def blockWrite (dev : Nat) (lba : BitVec 64) (data : List Sector) (ans : Nat → Answer) (s : State) :
    Int × State :=
  if (devs dev).isBlock then
    match rawWrite devs s.disk dev lba data (ans data.length) with
    | (r,disk) =>
      if r < 0 then (-1,{ s with disk := disk })
      else (0,{ disk := disk, cache := s.cache.putAll dev lba data })
  else (-1,s)

/-! ### The ATA driver -/

/-- `ATA_DMA_CHUNK_SECTORS`. -/
def dmaChunk : Nat := 64

/-- The loop of `ata_block_read` and `ata_block_write` on a drive that stops after `stop`
sectors: a transfer that does not complete is an error. -/
def ataLoop (stop count : Nat) : Nat → Nat → Int
  | 0, _ => count*512
  | fuel+1, done =>
    if count ≤ done then count*512
    else if done+min (count-done) dmaChunk ≤ stop then
      ataLoop stop count fuel (done+min (count-done) dmaChunk)
    else if done = 0 then -1 else done*512

/-- A transfer of `count` sectors by the ATA driver. -/
def ataTransfer (stop count : Nat) : Answer := ⟨stop,ataLoop stop count count 0⟩

end

/-! ### The cache as a partial map -/

namespace Cache

variable {c : Cache} {dev dev' : Nat} {lba lba' : BitVec 64} {v v' : Sector} {i : Fin entries}

/-- The slot is valid and tagged with the sector. -/
def Tagged (c : Cache) (i : Fin entries) (dev : Nat) (lba : BitVec 64) : Prop :=
  (c.slot i).age ≠ 0 ∧ (c.slot i).dev = dev ∧ (c.slot i).lba = lba

def Maps (c : Cache) (dev : Nat) (lba : BitVec 64) (v : Sector) : Prop :=
  ∃ i, c.Tagged i dev lba ∧ (c.slot i).data = v

/-- No sector has two valid slots. -/
def Unique (c : Cache) : Prop :=
  ∀ i j dev lba, c.Tagged i dev lba → c.Tagged j dev lba → i = j

theorem find_some (h : c.find dev lba = some i) : c.Tagged i dev lba := by
  rw [find] at h
  have htag := find?_some h
  rwa [decide_eq_true_eq] at htag

theorem find_none (h : c.find dev lba = none) (i : Fin entries) : ¬ c.Tagged i dev lba := by
  intro ht
  rw [find,find?_eq_none] at h
  exact h i (mem_finRange i) (decide_eq_true ht)

theorem tagged_fill {j : Fin entries} (h : (c.fill i dev lba v).Tagged j dev' lba') :
    (j = i ∧ dev' = dev ∧ lba' = lba) ∨ (j ≠ i ∧ c.Tagged j dev' lba') := by
  by_cases hj : j = i
  · subst hj
    obtain ⟨-,h1,h2⟩ := h
    simp only [fill,update_self] at h1 h2
    exact .inl ⟨rfl,h1.symm,h2.symm⟩
  · refine .inr ⟨hj,?_⟩
    simpa only [Tagged,fill,update_of_ne hj] using h

theorem Unique.fill (hc : c.Unique) (hfree : ∀ j, c.Tagged j dev lba → j = i) :
    (c.fill i dev lba v).Unique := by
  intro a b dev' lba' ha hb
  rcases tagged_fill ha with ⟨rfl,rfl,rfl⟩ | ⟨ha1,ha2⟩ <;>
    rcases tagged_fill hb with ⟨rfl,h1,h2⟩ | ⟨hb1,hb2⟩
  · rfl
  · exact absurd (hfree b hb2) hb1
  · rw [h1,h2] at ha2
    exact absurd (hfree a ha2) ha1
  · exact hc a b dev' lba' ha2 hb2

theorem maps_fill (hfree : ∀ j, c.Tagged j dev lba → j = i)
    (h : (c.fill i dev lba v).Maps dev' lba' v') :
    (dev' = dev ∧ lba' = lba ∧ v' = v) ∨ (¬ (dev' = dev ∧ lba' = lba) ∧ c.Maps dev' lba' v') := by
  obtain ⟨j,ht,hv⟩ := h
  rcases tagged_fill ht with ⟨rfl,h1,h2⟩ | ⟨hj,htag⟩
  · simp only [Cache.fill,update_self] at hv
    exact .inl ⟨h1,h2,hv.symm⟩
  simp only [Cache.fill,update_of_ne hj] at hv
  refine .inr ⟨?_,j,htag,hv⟩
  rintro ⟨h1,h2⟩
  rw [h1,h2] at htag
  exact hj (hfree j htag)

section

variable (hc : c.Unique)
include hc

theorem Unique.put_free (j : Fin entries) (hj : c.Tagged j dev lba) :
    j = (c.find dev lba).getD c.victim := by
  cases hf : c.find dev lba with
  | none => exact absurd hj (find_none hf j)
  | some i => exact hc j i dev lba hj (find_some hf)

theorem Unique.put : (c.put dev lba v).Unique := hc.fill hc.put_free

theorem Unique.maps_put (h : (c.put dev lba v).Maps dev' lba' v') :
    (dev' = dev ∧ lba' = lba ∧ v' = v) ∨ (¬ (dev' = dev ∧ lba' = lba) ∧ c.Maps dev' lba' v') :=
  maps_fill hc.put_free h

theorem Unique.touch_free (hi : c.Tagged i dev lba) (j : Fin entries)
    (hj : c.Tagged j (c.slot i).dev (c.slot i).lba) : j = i := by
  rw [hi.2.1,hi.2.2] at hj
  exact hc j i dev lba hj hi

theorem Unique.touch (hi : c.Tagged i dev lba) : (c.touch i).Unique :=
  hc.fill (hc.touch_free hi)

theorem Unique.maps_touch (hi : c.Tagged i dev lba)
    (h : (c.touch i).Maps dev' lba' v') : c.Maps dev' lba' v' := by
  rcases maps_fill (hc.touch_free hi) h with ⟨rfl,rfl,rfl⟩ | ⟨-,h⟩
  · exact ⟨i,⟨hi.1,rfl,rfl⟩,rfl⟩
  · exact h

end

theorem blockInit_not_tagged (i : Fin entries) : ¬ blockInit.Tagged i dev lba := fun h => h.1 rfl

theorem blockInit_find : blockInit.find dev lba = none := by
  rw [find,find?_eq_none]
  intro i _ h
  rw [decide_eq_true_eq] at h
  exact blockInit_not_tagged i h

end Cache

/-! ### Coherence -/

/-- Each valid entry is what the device holds, and no sector has two. -/
structure Coherent (s : State) : Prop where
  unique : s.cache.Unique
  same : ∀ dev lba v, s.cache.Maps dev lba v → v = s.disk dev lba

variable {devs : Nat → Device} {s : State} {disk : Disk} {c : Cache} {dev count : Nat}
  {lba : BitVec 64} {xs : List Sector}

theorem blockInit_coherent (disk : Disk) : Coherent ⟨disk,blockInit⟩ where
  unique := fun i _ _ _ h => absurd h (Cache.blockInit_not_tagged i)
  same := by
    rintro dev lba v ⟨i,h,-⟩
    exact absurd h (Cache.blockInit_not_tagged i)

theorem Coherent.store (h : Coherent ⟨disk,c⟩) :
    Coherent ⟨disk.store dev lba xs,c.putAll dev lba xs⟩ := by
  induction xs generalizing disk c lba with
  | nil => exact h
  | cons x xs ih =>
    refine ih ⟨h.unique.put,fun dev' lba' v hv => ?_⟩
    rcases h.unique.maps_put hv with ⟨rfl,rfl,rfl⟩ | ⟨hne,hv⟩
    · simp
    refine (h.same dev' lba' v hv).trans ?_
    by_cases hd : dev' = dev
    · subst hd
      simp [update_of_ne fun h0 => hne ⟨rfl,h0⟩]
    · simp [update_of_ne hd]

theorem lba_succ (lba : BitVec 64) (k : Nat) : lba+1+.ofNat 64 k = lba+.ofNat 64 (k+1) := by
  rw [add_assoc,add_comm k 1,ofNat_add]
  rfl

theorem lba_add (lba : BitVec 64) (i k : Nat) : lba+.ofNat 64 i+.ofNat 64 k = lba+.ofNat 64 (i+k) := by
  rw [add_assoc,ofNat_add]

theorem store_same (h : ∀ k v, xs[k]? = some v → v = disk dev (lba+.ofNat 64 k)) :
    disk.store dev lba xs = disk := by
  induction xs generalizing lba with
  | nil => rfl
  | cons x xs ih =>
    have hx : x = disk dev lba := by simpa using h 0 x rfl
    rw [Disk.store,hx,update_eq_self,update_eq_self]
    refine ih fun k v hk => ?_
    rw [lba_succ]
    exact h (k+1) v hk

theorem Coherent.putAll (h : Coherent ⟨disk,c⟩)
    (hxs : ∀ k v, xs[k]? = some v → v = disk dev (lba+.ofNat 64 k)) :
    Coherent ⟨disk,c.putAll dev lba xs⟩ := by
  have hstore : Coherent ⟨disk.store dev lba xs,c.putAll dev lba xs⟩ := h.store
  rwa [store_same hxs] at hstore

theorem Coherent.touch {i : Fin entries} (h : Coherent ⟨disk,c⟩) (hi : c.Tagged i dev lba) :
    Coherent ⟨disk,c.touch i⟩ :=
  ⟨h.unique.touch hi,fun dev' lba' v hv => h.same dev' lba' v (h.unique.maps_touch hi hv)⟩

/-! ### Whole transfers -/

theorem neg_one_ne_zero : ¬ (-1 : Int) = 0 := by decide

variable {ans : Nat → Nat → Answer}

/-- A transfer that the block layer takes for a success moved all its sectors. -/
def Answer.Honest (n : Nat) (a : Answer) : Prop := 0 ≤ toInt a.result → n ≤ a.moved

theorem missRun_le {i : Nat} (hi : i < count) : i+missRun c dev lba i count ≤ count := by
  have h := (List.takeWhile_prefix (l := List.range (count-i-1)) fun k =>
    (c.find dev (lba+.ofNat 64 (i+1+k))).isNone).length_le
  rw [length_range] at h
  rw [missRun]
  omega

theorem missRun_pos (i : Nat) : 0 < missRun c dev lba i count := by
  rw [missRun]
  omega

/-- What a read of the devices through the cache does. -/
structure ReadOk (disk : Disk) (dev : Nat) (lba : BitVec 64) (count : Nat)
    (r : Int × (Nat → Sector) × State) : Prop where
  data : r.1 = 0 → ∀ k < count, r.2.1 k = disk dev (lba+.ofNat 64 k)
  disk : r.2.2.disk = disk
  coherent : Coherent r.2.2

section Loop

variable {fuel i : Nat} {out : Nat → Sector}

theorem readLoop_hit (hi : i < count) {slot : Fin entries}
    (hf : s.cache.find dev (lba+.ofNat 64 i) = some slot) :
    readLoop devs dev lba count ans (fuel+1) i out s =
      readLoop devs dev lba count ans fuel (i+1) (update out i (s.cache.slot slot).data)
        { s with cache := s.cache.touch slot } := by
  rw [readLoop,if_neg (not_le.mpr hi),hf]

theorem readLoop_end (hi : count ≤ i) :
    readLoop devs dev lba count ans fuel i out s = (0,out,s) := by
  cases fuel with
  | zero => rfl
  | succ fuel => rw [readLoop,if_pos hi]

theorem readLoop_miss (hi : i < count) (hf : s.cache.find dev (lba+.ofNat 64 i) = none)
    {run : Nat} (hrun : run = missRun s.cache dev lba i count) {r : Int} {out' : Nat → Sector}
    (hraw : rawRead devs s.disk dev lba out i run (ans i run) = (r,out')) :
    readLoop devs dev lba count ans (fuel+1) i out s =
      if r < 0 then (-1,out',s) else readLoop devs dev lba count ans fuel (i+run) out'
        ⟨s.disk,s.cache.putAll dev (lba+.ofNat 64 i) ((List.range run).map fun k => out' (i+k))⟩ := by
  subst hrun
  rw [readLoop,if_neg (not_le.mpr hi),hf]
  simp only [hraw]

theorem rawRead_out {n : Nat} {a : Answer} {r : Int} {out' : Nat → Sector} (ha : a.Honest n)
    (hraw : rawRead devs disk dev lba out i n a = (r,out')) (hr : ¬ r < 0)
    (hout : ∀ k < i, out k = disk dev (lba+.ofNat 64 k)) :
    ∀ k < i+n, out' k = disk dev (lba+.ofNat 64 k) := by
  intro k hk
  rw [rawRead] at hraw
  split at hraw
  · obtain ⟨rfl,rfl⟩ := Prod.mk.inj hraw
    have hmoved := ha (Int.not_lt.mp hr)
    by_cases hik : i ≤ k
    · exact if_pos (by omega)
    · exact (if_neg (by omega)).trans (hout k (by omega))
  · obtain ⟨rfl,-⟩ := Prod.mk.inj hraw
    exact absurd (by decide) hr

end Loop

/-- Over honest transfers a read delivers what the device holds. -/
theorem readLoop_ok (hans : ∀ i n, n ≤ count → (ans i n).Honest n) (fuel i : Nat)
    (out : Nat → Sector) (s : State) (hfuel : count ≤ i+fuel) (hs : Coherent s)
    (hout : ∀ k < i, out k = s.disk dev (lba+.ofNat 64 k)) :
    ReadOk s.disk dev lba count (readLoop devs dev lba count ans fuel i out s) := by
  induction fuel generalizing i out s with
  | zero => exact ⟨fun _ k hk => hout k (by omega),rfl,hs⟩
  | succ fuel ih =>
    by_cases hi : count ≤ i
    · rw [readLoop_end hi]
      exact ⟨fun _ k hk => hout k (by omega),rfl,hs⟩
    have hi' : i < count := not_le.mp hi
    cases hf : s.cache.find dev (lba+.ofNat 64 i) with
    | some slot =>
      -- a hit is what the device holds
      have htag := Cache.find_some hf
      have hdata := hs.same _ _ _ ⟨slot,htag,rfl⟩
      rw [readLoop_hit hi' hf]
      refine ih (i+1) _ ⟨s.disk,s.cache.touch slot⟩ (by omega) (hs.touch htag) fun k hk => ?_
      by_cases hki : k = i
      · rw [hki,update_self]
        exact hdata
      · rw [update_of_ne hki]
        exact hout k (by omega)
    | none =>
      have hle : i+missRun s.cache dev lba i count ≤ count := missRun_le hi'
      have hpos : 0 < missRun s.cache dev lba i count := missRun_pos i
      rcases hraw : rawRead devs s.disk dev lba out i (missRun s.cache dev lba i count)
        (ans i (missRun s.cache dev lba i count)) with ⟨r,out'⟩
      rw [readLoop_miss hi' hf rfl hraw]
      split
      · exact ⟨fun h => absurd h neg_one_ne_zero,rfl,hs⟩
      rename_i hr
      have hout' := rawRead_out (hans i _ (by omega)) hraw hr hout
      refine ih _ out' ⟨s.disk,_⟩ (by omega) (Coherent.putAll hs fun k v hk => ?_) hout'
      obtain ⟨hlen,rfl⟩ := List.getElem?_eq_some_iff.mp hk
      rw [length_map,length_range] at hlen
      rw [getElem_map,getElem_range,hout' (i+k) (by omega),lba_add]

theorem blockRead_ok (hans : ∀ i n, n ≤ count → (ans i n).Honest n) (out : Nat → Sector)
    (hs : Coherent s) : ReadOk s.disk dev lba count (blockRead devs dev lba count out ans s) := by
  rw [blockRead]
  split
  · exact readLoop_ok hans count 0 out s (by omega) hs (by simp)
  · exact ⟨fun h => absurd h neg_one_ne_zero,rfl,hs⟩

/-- A write whose transfer moved everything, or nothing and says so. -/
structure WriteOk (disk : Disk) (dev : Nat) (lba : BitVec 64) (data : List Sector)
    (r : Int × State) : Prop where
  done : r.1 = 0 → r.2.disk = disk.store dev lba data
  failed : r.1 ≠ 0 → r.2.disk = disk
  coherent : Coherent r.2

theorem blockWrite_ok {data : List Sector} {answer : Nat → Answer}
    (hans : (answer data.length).Honest data.length)
    (hfail : toInt (answer data.length).result < 0 → (answer data.length).moved = 0)
    (hs : Coherent s) : WriteOk s.disk dev lba data (blockWrite devs dev lba data answer s) := by
  rw [blockWrite]
  split
  · rename_i hblock
    by_cases hops : (devs dev).isBlock ∧ (devs dev).canWrite
    · rw [rawWrite,if_pos hops]
      dsimp only
      split
      · rename_i hr
        rw [hfail hr,take_zero]
        exact ⟨fun h => absurd h neg_one_ne_zero,fun _ => rfl,hs⟩
      · rename_i hr
        rw [take_of_length_le (hans (Int.not_lt.mp hr))]
        exact ⟨fun _ => rfl,fun h => absurd rfl h,hs.store⟩
    · rw [rawWrite,if_neg hops]
      exact ⟨fun h => absurd h neg_one_ne_zero,fun _ => rfl,hs⟩
  · exact ⟨fun h => absurd h neg_one_ne_zero,fun _ => rfl,hs⟩

/-- One call of the block layer. -/
inductive Call where
  | read (dev : Nat) (lba : BitVec 64) (count : Nat) (out : Nat → Sector) (ans : Nat → Nat → Answer)
  | write (dev : Nat) (lba : BitVec 64) (data : List Sector) (ans : Nat → Answer)

def step (devs : Nat → Device) (s : State) : Call → Option State
  | .read dev lba count out ans => some (blockRead devs dev lba count out ans s).2.2
  | .write dev lba data ans => some (blockWrite devs dev lba data ans s).2

/-- The transfer moved all it was asked for and returned no error, or failed and moved nothing. -/
def Answer.Whole (n : Nat) (a : Answer) : Prop :=
  (a.moved = n ∧ 0 ≤ a.result) ∨ (a.moved = 0 ∧ a.result < 0)

def Call.Whole : Call → Prop
  | .read _ _ _ _ ans => ∀ i n, (ans i n).Whole n
  | .write _ _ _ ans => ∀ n, (ans n).Whole n

/-- The result of the transfer keeps its sign as an `int`; of a read, an error does. -/
def Call.SignKept : Call → Prop
  | .read _ _ _ _ ans => ∀ i n, (ans i n).result < 0 → toInt (ans i n).result < 0
  | .write _ _ data ans => toInt (ans data.length).result < 0 ↔ (ans data.length).result < 0

/-- The call answers as the devices without a cache would. -/
def Call.Plain (devs : Nat → Device) (s : State) : Call → Prop
  | .read dev lba count out ans => ReadOk s.disk dev lba count (blockRead devs dev lba count out ans s)
  | .write dev lba data ans => WriteOk s.disk dev lba data (blockWrite devs dev lba data ans s)

variable {n : Nat}

theorem Answer.Whole.honest {a : Answer} (h : a.Whole n) (hs : a.result < 0 → toInt a.result < 0) :
    a.Honest n := by
  intro hr
  rcases h with ⟨hm,-⟩ | ⟨-,hneg⟩
  · exact hm.ge
  · exact absurd (hs hneg) (Int.not_lt.mpr hr)

theorem Coherent.plain (hs : Coherent s) {call : Call} (hw : call.Whole) (hk : call.SignKept) :
    call.Plain devs s := by
  cases call with
  | read dev lba count out ans => exact blockRead_ok (fun i n _ => (hw i n).honest (hk i n)) out hs
  | write dev lba data ans =>
    refine blockWrite_ok ((hw _).honest hk.mpr) (fun hr => ?_) hs
    rcases hw data.length with ⟨-,h0⟩ | ⟨hm,-⟩
    · exact absurd (hk.mp hr) (Int.not_lt.mpr h0)
    · exact hm

/-- In every run of whole transfers whose results keep their sign, every cached sector is
what its device holds, no sector is cached twice, and every call answers as the devices
themselves would. -/
theorem cache_transparent (devs : Nat → Device) (disk : Disk) (calls : List Call)
    (h : ∀ call ∈ calls, call.Whole ∧ call.SignKept) :
    Always (step devs) (fun s => Coherent s ∧
      ∀ call : Call, call.Whole → call.SignKept → call.Plain devs s) ⟨disk,blockInit⟩ calls := by
  refine always_of_along (fun s (hs : Coherent s) => ⟨hs,fun call => hs.plain⟩) ?_ _ _
    (blockInit_coherent disk) (Along.of_mem h _)
  rintro s call s' hs ⟨hw,hk⟩ hstep
  have hp : call.Plain devs s := hs.plain hw hk
  cases call with
  | read dev lba count out ans | write dev lba data ans =>
    cases hstep
    exact hp.coherent

/-- A transfer that moves all it is asked for and returns the number of bytes. -/
def moveAll (n : Nat) : Answer := ⟨n,n*512⟩

theorem moveAll_whole (n : Nat) : (moveAll n).Whole n := .inl ⟨rfl,by simp only [moveAll]; omega⟩

/-! ### Transfers whose result loses its sign -/

def zeros : Sector := fun _ => 0

def ones : Sector := fun _ => 1

theorem zeros_ne_ones : zeros ≠ ones := fun h => absurd (congrFun h 0) (by decide)

/-- One sector is written and read back. -/
theorem cache_transparent_readBack :
    Always (step fun _ => {}) (fun s => Coherent s ∧
      ∀ call : Call, call.Whole → call.SignKept → call.Plain (fun _ => {}) s)
      ⟨fun _ _ => zeros,blockInit⟩
      [.write 0 0 [ones] moveAll,.read 0 0 1 (fun _ => zeros) fun _ => moveAll] := by
  refine cache_transparent _ _ _ fun call hcall => ?_
  rcases mem_cons.mp hcall with rfl | hcall
  · exact ⟨moveAll_whole,by simp only [Call.SignKept]; decide⟩
  · rw [mem_singleton.mp hcall]
    refine ⟨fun _ => moveAll_whole,fun i n hneg => absurd hneg (Int.not_lt.mpr ?_)⟩
    simp only [moveAll]
    omega

/-- A sector that holds the value keeps it while more of the same is written. -/
theorem store_replicate_stays {a : BitVec 64} (n : Nat) {v : Sector} (h : disk dev a = v) :
    (disk.store dev lba (List.replicate n v)) dev a = v := by
  induction n generalizing disk lba with
  | zero => exact h
  | succ n ih =>
    refine ih ?_
    rw [update_self]
    by_cases ha : a = lba
    · rw [ha,update_self]
    · rw [update_of_ne ha]
      exact h

theorem store_replicate_first (disk : Disk) (dev : Nat) (lba : BitVec 64) (hn : 0 < n) (v : Sector) :
    (disk.store dev lba (List.replicate n v)) dev lba = v := by
  obtain ⟨n,rfl⟩ := Nat.exists_eq_succ_of_ne_zero (Nat.ne_of_gt hn)
  exact store_replicate_stays n (by rw [update_self,update_self])

/-- A blank device with its first sector in the cache. -/
def cachedZero (dev : Nat) (lba : BitVec 64) : State := ⟨fun _ _ => zeros,blockInit.put dev lba zeros⟩

theorem cachedZero_coherent (dev : Nat) (lba : BitVec 64) : Coherent (cachedZero dev lba) := by
  have hzero : ∀ (k : Nat) (v : Sector), [zeros][k]? = some v → v = zeros := fun k v hk =>
    mem_singleton.mp (mem_of_getElem? hk)
  have hblank : Coherent ⟨fun _ _ => zeros,blockInit⟩ := blockInit_coherent _
  exact hblank.putAll (fun k v hk => hzero k v hk)

/-- A sector just put is found, unless the clock wrapped to the stamp of invalid entries. -/
theorem Cache.put_maps {c : Cache} (hclock : c.clock+1 ≠ 0) (dev : Nat) (lba : BitVec 64) (v : Sector) :
    (c.put dev lba v).Maps dev lba v := by
  refine ⟨(c.find dev lba).getD c.victim,?_,?_⟩
  · refine ⟨?_,?_,?_⟩
    · simpa [Cache.put,Cache.fill] using hclock
    · simp [Cache.put,Cache.fill]
    · simp [Cache.put,Cache.fill]
  · simp [Cache.put,Cache.fill]

section

variable (dev : Nat) (lba : BitVec 64)

theorem cachedZero_maps :
    (cachedZero dev lba).cache.Maps dev lba zeros :=
  Cache.put_maps (by decide) dev lba zeros

/-- A write that changed the sector of a valid entry and reports an error leaves the entry
behind. -/
theorem stale_after_write {r : Int × State} (hcache : r.2.cache = (cachedZero dev lba).cache)
    (hdisk : r.2.disk dev lba = ones) : ¬ Coherent r.2 := by
  intro hc
  have hmaps := cachedZero_maps dev lba
  rw [← hcache] at hmaps
  exact zeros_ne_ones ((hc.same dev lba zeros hmaps).trans hdisk)

theorem blockWrite_eq (data : List Sector) (answer : Nat → Answer)
    (s : State) :
    blockWrite (fun _ => {}) dev lba data answer s =
      if toInt (answer data.length).result < 0 then
        (-1,⟨s.disk.store dev lba (data.take (answer data.length).moved),s.cache⟩)
      else (0,⟨s.disk.store dev lba (data.take (answer data.length).moved),
        s.cache.putAll dev lba data⟩) := rfl

theorem refused_write_stale {answer : Nat → Answer} (hn : 0 < n)
    (hmoved : 0 < (answer n).moved) (hneg : toInt (answer n).result < 0) :
    ¬ Coherent (blockWrite (fun _ => {}) dev lba (List.replicate n ones) answer
      (cachedZero dev lba)).2 := by
  have heq := blockWrite_eq dev lba (List.replicate n ones) answer (cachedZero dev lba)
  rw [length_replicate,if_pos hneg,take_replicate] at heq
  refine stale_after_write dev lba ?_ ?_
  · rw [heq]
  · rw [heq]
    exact store_replicate_first _ dev lba (Nat.lt_min.mpr ⟨hmoved,hn⟩) ones

end

/-- As many sectors as make the number of bytes negative as an `int`. -/
def wideCount : Nat := 4194304

theorem wideCount_pos : 0 < wideCount := Nat.succ_pos _

theorem wideCount_neg : toInt (moveAll wideCount).result < 0 := by decide

/-- A device writes 2 GiB, the result is taken for an error, and the entry of a sector written
before stays as it was. -/
theorem wide_write_leaves_stale : ∃ s,
    (∀ call ∈ [Call.write 0 0 [zeros] moveAll,.write 0 0 (List.replicate wideCount ones) moveAll],
      call.Whole) ∧
    exec (step fun _ => {}) ⟨fun _ _ => zeros,blockInit⟩
      [.write 0 0 [zeros] moveAll,.write 0 0 (List.replicate wideCount ones) moveAll] = some s ∧
    ¬ Coherent s := by
  have hfirst : (blockWrite (fun _ => {}) 0 0 [zeros] moveAll ⟨fun _ _ => zeros,blockInit⟩).2 =
      cachedZero 0 0 := by
    have hpos : ¬ toInt (moveAll [zeros].length).result < 0 := by decide
    have hdisk : Disk.store (fun _ _ => zeros) 0 0 [zeros] = fun _ _ => zeros :=
      store_same fun k v hk => mem_singleton.mp (mem_of_getElem? hk)
    rw [blockWrite_eq,if_neg hpos]
    exact congrArg (State.mk · (blockInit.put 0 0 zeros)) hdisk
  refine ⟨_,?_,?_,refused_write_stale 0 0 wideCount_pos wideCount_pos wideCount_neg⟩
  · intro call hcall
    rcases mem_cons.mp hcall with rfl | hcall
    · exact moveAll_whole
    · rw [mem_singleton.mp hcall]
      exact moveAll_whole
  · simp only [exec_cons,exec_nil,step,Option.bind_some,hfirst]

end Lariat.Block
