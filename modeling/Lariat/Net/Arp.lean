import Mathlib.Algebra.Order.BigOperators.Group.Finset
import Mathlib.Algebra.Order.Group.Multiset
import Mathlib.Data.Finset.Max
import Mathlib.Data.Fintype.BigOperators

/-! The ARP cache: packets that wait for a hardware address, and what an ARP packet does for them. -/
namespace Lariat.Net.Arps
open Finset Multiset Option Function

def ARP_TTL_TICKS : Nat := 12000

/-- A queued packet, known by the number of packets queued before it. -/
structure Waiting where
  id : Nat
  dst : UInt32
  deriving DecidableEq

structure Entry where
  ip : UInt32
  mac : Vector UInt8 6
  valid : Bool
  expire : Nat
  pending : Option Waiting

/-- The cache of sixteen entries, and which queued packets were freed and which were sent where. -/
structure Arp where
  cache : Fin 16 → Entry := fun _ => ⟨0,Vector.replicate 6 0,false,0,none⟩
  next : Nat := 0
  freed : List Nat := []
  sent : List (Waiting × Vector UInt8 6) := []

namespace Arp

variable (s : Arp)

def first (p : Entry → Bool) : Option (Fin 16) := (List.finRange 16).find? fun i => p (s.cache i)

def arpFind (ip : UInt32) : Option (Fin 16) := s.first fun e => e.valid && e.ip == ip

/-- An empty entry, an expired one, one where no packet waits, or entry 0. -/
def arpAllocSlot (now : Nat) : Fin 16 :=
  ((s.first fun e => !e.valid && e.pending.isNone).or
    ((s.first fun e => e.valid && e.expire < now && e.pending.isNone).or
      (s.first fun e => e.pending.isNone))).getD 0

/-- `arp_resolve` for a packet to `dst`; a packet whose address is known is not queued. -/
def arpResolve (dst : UInt32) (now : Nat) : Arp :=
  match s.arpFind dst with
  | some _ => s
  | none =>
    let i := s.arpAllocSlot now
    { s with
      cache := update s.cache i
        { s.cache i with ip := dst, valid := false, pending := some ⟨s.next,dst⟩ }
      next := s.next+1
      freed := ((s.cache i).pending.map Waiting.id).toList ++ s.freed }

def insertSlot (ip : UInt32) (now : Nat) : Fin 16 := (s.arpFind ip).getD (s.arpAllocSlot now)

/-- The packet that `arp_cache_insert` flushes. -/
def flushed (ip : UInt32) (now : Nat) : Option Waiting := (s.cache (s.insertSlot ip now)).pending

/-- `arp_input` for a packet from `ip` with hardware address `mac`. -/
def arpInput (ip : UInt32) (mac : Vector UInt8 6) (now : Nat) : Arp :=
  { s with
    cache := update s.cache (s.insertSlot ip now) ⟨ip,mac,true,now+ARP_TTL_TICKS,none⟩
    sent := ((s.flushed ip now).map (·,mac)).toList ++ s.sent }

/-- The packets that were queued and are not any more. -/
def done : List Nat := s.freed ++ s.sent.map fun x => x.1.id

def Waits (w : Waiting) : Prop := ∃ i, (s.cache i).pending = some w

/-- Of the packets for `ip` that wait, the one queued last. -/
def Latest (ip : UInt32) (w : Waiting) : Prop :=
  s.Waits w ∧ w.dst = ip ∧ ∀ v, s.Waits v → v.dst = ip → v.id ≤ w.id

end Arp

inductive Event where
  | resolve (dst : UInt32) (now : Nat)
  | input (ip : UInt32) (mac : Vector UInt8 6) (now : Nat)

def Arp.step (s : Arp) : Event → Arp
  | .resolve dst now => s.arpResolve dst now
  | .input ip mac now => s.arpInput ip mac now

/-- The number of the packet that waits in an entry. -/
def Entry.held (e : Entry) : Multiset Nat := (e.pending.map Waiting.id).toList

/-- Every packet queued so far waits in one entry, or was sent or freed once. -/
structure Custody (s : Arp) : Prop where
  ledger : ∑ i, (s.cache i).held + s.done = Multiset.range s.next
  valid : ∀ i, (s.cache i).valid → (s.cache i).pending = none

section Steps

variable {s : Arp} {ip : UInt32} {now : Nat}

theorem first_spec {p : Entry → Bool} {i : Fin 16} (h : s.first p = some i) : p (s.cache i) :=
  List.find?_some (p := fun i => p (s.cache i)) h

theorem first_none {p : Entry → Bool} (h : s.first p = none) (i : Fin 16) : ¬ p (s.cache i) :=
  List.find?_eq_none.mp h i (List.mem_finRange i)

/-- A new entry takes the place of one whose packet is done with. -/
theorem Custody.replace (h : Custody s) {s' : Arp} {i : Fin 16} {e : Entry}
    (hcache : s'.cache = update s.cache i e)
    (hdone : (s'.done : Multiset Nat) = (s.cache i).held + s.done)
    (hnext : Multiset.range s'.next = e.held + Multiset.range s.next)
    (hvalid : e.valid → e.pending = none) : Custody s' := by
  have hhere : s'.cache i = e := by rw [hcache,update_self]
  have hother {j : Fin 16} (hj : j ≠ i) : s'.cache j = s.cache j := by rw [hcache,update_of_ne hj]
  constructor
  · have hrest : ∑ j ∈ Finset.univ.erase i, (s'.cache j).held = ∑ j ∈ Finset.univ.erase i, (s.cache j).held :=
      sum_congr rfl fun j hj => by rw [hother (ne_of_mem_erase hj)]
    rw [hdone,hnext,← h.ledger,← add_sum_erase _ _ (mem_univ i),hrest,hhere,
      ← add_sum_erase _ (fun j => (s.cache j).held) (mem_univ i)]
    ac_rfl
  · intro j hv
    rcases eq_or_ne j i with rfl | hj
    · rw [hhere] at hv ⊢
      exact hvalid hv
    · rw [hother hj] at hv ⊢
      exact h.valid j hv

theorem Custody.step (h : Custody s) (e : Event) : Custody (s.step e) := by
  cases e with
  | resolve dst now =>
    rw [Arp.step,Arp.arpResolve]
    split
    · exact h
    · refine h.replace rfl ?_ (range_succ s.next) fun hv => by cases hv
      rw [Arp.done,List.append_assoc]
      rfl
  | input ip mac now =>
    refine h.replace rfl ?_ (zero_add _).symm fun _ => rfl
    show ((s.freed ++ (((s.flushed ip now).map (·,mac)).toList ++ s.sent).map fun x => x.1.id : List Nat) :
      Multiset Nat) = _
    rw [List.map_append,← coe_add,← coe_add,add_left_comm,Arp.flushed,Entry.held]
    cases (s.cache (s.insertSlot ip now)).pending <;> rfl

theorem custody_start : Custody {} := ⟨rfl,fun _ _ => rfl⟩

theorem Custody.single (h : Custody s) {i j : Fin 16} {w v : Waiting} (hi : (s.cache i).pending = some w)
    (hj : (s.cache j).pending = some v) (hid : w.id = v.id) : i = j := by
  by_contra hne
  have hle : (s.cache i).held + (s.cache j).held ≤ Multiset.range s.next := by
    rw [← h.ledger,← sum_pair (f := fun k => (s.cache k).held) hne]
    exact le_add_right (sum_le_sum_of_subset (subset_univ _))
  have hnodup := nodup_of_le hle (nodup_range _)
  rw [Entry.held,Entry.held,hi,hj,map_some,map_some,hid] at hnodup
  exact absurd hnodup (by simp)

private theorem pending_of_and {e : Entry} {b : Bool} (h : (b && e.pending.isNone) = true) :
    e.pending = none := isNone_iff_eq_none.mp (Bool.and_eq_true_iff.mp h).2

/-- A packet is flushed only when one waits in every entry, and then it is that of entry 0. -/
theorem Custody.flushed_eq (h : Custody s) : s.flushed ip now =
    if ∀ i, (s.cache i).pending ≠ none then (s.cache 0).pending else none := by
  rw [Arp.flushed,Arp.insertSlot]
  split
  · rename_i hall
    have hnone (p : Entry → Bool) (hp : ∀ e, p e → e.pending = none) : s.first p = none := by
      cases hf : s.first p with
      | none => rfl
      | some i => exact absurd (hp _ (first_spec hf)) (hall i)
    have hfind : s.arpFind ip = none := by
      cases hf : s.arpFind ip with
      | none => rfl
      | some i => exact absurd (h.valid i (Bool.and_eq_true_iff.mp (first_spec hf)).1) (hall i)
    have h1 := hnone (fun e => !e.valid && e.pending.isNone) fun e => pending_of_and
    have h2 := hnone (fun e => e.valid && e.expire < now && e.pending.isNone) fun e => pending_of_and
    have h3 := hnone (fun e => e.pending.isNone) fun e => isNone_iff_eq_none.mp
    rw [hfind,Arp.arpAllocSlot,h1,h2,h3]
    rfl
  · rename_i hsome
    cases hf : s.arpFind ip with
    | some i => exact h.valid i (Bool.and_eq_true_iff.mp (first_spec hf)).1
    | none =>
      rw [getD_none,Arp.arpAllocSlot]
      cases h1 : s.first fun e => !e.valid && e.pending.isNone with
      | some i => exact pending_of_and (first_spec h1)
      | none =>
        cases h2 : s.first fun e => e.valid && e.expire < now && e.pending.isNone with
        | some i => exact pending_of_and (first_spec h2)
        | none =>
          cases h3 : s.first fun e => e.pending.isNone with
          | some i => exact isNone_iff_eq_none.mp (first_spec h3)
          | none =>
            refine absurd (fun i hi => first_none h3 i ?_) hsome
            exact isNone_iff_eq_none.mpr hi

theorem Custody.latest_unique (h : Custody s) {w v : Waiting} (hw : s.Latest ip w) (hv : s.Latest ip v) :
    w = v := by
  obtain ⟨⟨i,hi⟩,hwip,hwmax⟩ := hw
  obtain ⟨⟨j,hj⟩,hvip,hvmax⟩ := hv
  have hid := Nat.le_antisymm (hvmax w ⟨i,hi⟩ hwip) (hwmax v ⟨j,hj⟩ hvip)
  obtain rfl := h.single hi hj hid
  exact some.inj (hi.symm.trans hj)

theorem exists_latest {w : Waiting} (hw : s.Waits w) (hdst : w.dst = ip) : ∃ v, s.Latest ip v := by
  obtain ⟨i,hi⟩ := hw
  -- the entry with the largest number among those that wait for the address
  let number (j : Fin 16) := ((s.cache j).pending.map Waiting.id).getD 0
  obtain ⟨j,hj,hmax⟩ := exists_max_image
    (Finset.univ.filter fun j => ∃ v, (s.cache j).pending = some v ∧ v.dst = ip) number
    ⟨i,Finset.mem_filter.mpr ⟨mem_univ i,w,hi,hdst⟩⟩
  obtain ⟨-,v,hv,hvip⟩ := mem_filter.mp hj
  refine ⟨v,⟨j,hv⟩,hvip,fun u ⟨k,hk⟩ huip => ?_⟩
  have hle := hmax k (mem_filter.mpr ⟨mem_univ k,u,hk,huip⟩)
  simp only [number,hk,hv,map_some,getD_some] at hle
  exact hle

end Steps

/-- The packet that is sent is the one queued last for the address. -/
def Answers (s : Arp) (ip : UInt32) (now : Nat) : Prop := ∀ w, s.flushed ip now = some w ↔ s.Latest ip w

/-- Nothing waits for the address and some entry has no packet, or all have and that of entry 0 is the
one. -/
def Served (s : Arp) (ip : UInt32) : Prop :=
  (∃ i, (s.cache i).pending = none) ∧ (∀ w, s.Waits w → w.dst ≠ ip) ∨
    (∀ i, (s.cache i).pending ≠ none) ∧ ∃ w, (s.cache 0).pending = some w ∧ s.Latest ip w

/-- After any calls no packet has been lost or used twice. But the entry in which a packet waits is not
valid, so the reply does not find it and takes another one. -/
theorem arp_pending_law (es : List Event) (ip : UInt32) (now : Nat) :
    Custody (es.foldl Arp.step {}) ∧
      (Answers (es.foldl Arp.step {}) ip now ↔ Served (es.foldl Arp.step {}) ip) := by
  have h : Custody (es.foldl Arp.step {}) :=
    List.foldlRecOn es Arp.step custody_start fun _ h e _ => h.step e
  refine ⟨h,?_⟩
  generalize es.foldl Arp.step {} = s at h
  rw [Answers,h.flushed_eq]
  rcases Classical.em (∀ i, (s.cache i).pending ≠ none) with hall | hsome
  · rw [if_pos hall]
    obtain ⟨w,hw⟩ := ne_none_iff_exists'.mp (hall 0)
    constructor
    · exact fun hlaw => .inr ⟨hall,w,hw,(hlaw w).mp hw⟩
    · rintro (⟨⟨i,hi⟩,-⟩ | ⟨-,v,hv,hlatest⟩) u
      · exact absurd hi (hall i)
      · constructor
        · intro hu
          obtain rfl := some.inj (hv.symm.trans hu)
          exact hlatest
        · intro hu
          rw [hv,h.latest_unique hlatest hu]
  · rw [if_neg hsome]
    obtain ⟨i,hi⟩ := not_forall.mp hsome
    constructor
    · intro hlaw
      refine .inl ⟨⟨i,not_not.mp hi⟩,fun w hw hdst => ?_⟩
      obtain ⟨v,hv⟩ := exists_latest hw hdst
      cases (hlaw v).mpr hv
    · rintro (⟨-,hno⟩ | ⟨hall,-⟩) u
      · exact iff_of_false (some_ne_none u).symm fun hu => hno u hu.1 hu.2.1
      · exact absurd hall hsome

/-- A packet waits for an address, the reply comes, and the packet still waits. -/
theorem reply_passes_by : ∃ s : Arp,
    s = [Event.resolve 5 0,Event.input 5 (Vector.replicate 6 1) 1].foldl Arp.step {} ∧
      s.sent = [] ∧ (s.cache 0).pending = some ⟨0,5⟩ ∧ (s.cache 1).ip = 5 ∧ (s.cache 1).valid = true :=
  ⟨_,rfl,rfl,rfl,rfl,rfl⟩

end Lariat.Net.Arps
