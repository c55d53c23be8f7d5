import Mathlib.Data.List.TakeWhile
import Lariat.Ext4.Disk

/-! What the block allocator guarantees while memory and transfers do not fail. -/
namespace Lariat.Ext4
open List Function

variable {g : Geometry} {d d' : Fs}

/-- No coming allocation of memory and no coming transfer fails. -/
structure Calm (d : Fs) : Prop where
  heap : d.heap = []
  io : d.io = []

namespace Fs

/-- The volume with one block written. -/
def put (d : Fs) (b : Nat) (c : Block) : Fs := { d with blocks := update d.blocks b c }

@[simp] theorem put_blocks (b : Nat) (c : Block) :
    (d.put b c).blocks = update d.blocks b c := rfl

end Fs

namespace Calm

theorem kzalloc (hd : Calm d) : d.kzalloc = (true,d) := by
  simp only [Fs.kzalloc,hd.heap]

theorem transfer (hd : Calm d) : d.transfer = (true,d) := by
  simp only [Fs.transfer,hd.io]

theorem readBlock (hd : Calm d) (b : Nat) : d.readBlock b = (some (d.blocks b),d) := by
  simp only [Fs.readBlock,hd.transfer]

theorem writeBlock (hd : Calm d) (b : Nat) (c : Block) : d.writeBlock b c = (true,d.put b c) := by
  simp only [Fs.writeBlock,hd.transfer,Fs.put]

theorem put (hd : Calm d) (b : Nat) (c : Block) : Calm (d.put b c) := ⟨hd.heap,hd.io⟩

theorem grab (hd : Calm d) (bg b n : Nat) : Calm (d.grab bg b n) := ⟨hd.heap,hd.io⟩

end Calm

theorem firstFree_spec {bg bit : Nat} (h : firstFree g d bg = some bit) :
    d.used (g.blockOf bg bit) = false := by
  simpa using find?_some h

theorem firstFree_lt {bg bit : Nat} (hbg : bg < g.groupsCount) (h : firstFree g d bg = some bit) :
    g.blockOf bg bit < 0x1000000000000 := by
  have hbit := mem_range.mp (mem_of_find?_eq_some h)
  have hle := Nat.mul_le_mul_right g.blocksPerGroup (Nat.succ_le_of_lt hbg)
  have hsucc := Nat.succ_mul bg g.blocksPerGroup
  have hall := g.blocks_le
  rw [Geometry.blockOf]
  omega

/-- One block was handed out; block 0 stands for none. -/
structure Granted (d d' : Fs) (b : Nat) : Prop where
  calm : Calm d'
  used : ∀ x, x ≠ b → d'.used x = d.used x
  blocks : ∀ x, x ≠ b → d'.blocks x = d.blocks x
  free : b ≠ 0 → d.used b = false
  taken : b ≠ 0 → d'.used b = true

theorem Granted.none (hd : Calm d) : Granted d d 0 :=
  ⟨hd,fun _ _ => rfl,fun _ _ => rfl,fun h => absurd rfl h,fun h => absurd rfl h⟩

theorem allocBlockIn_granted (hd : Calm d) (bgs : List Nat) :
    Granted d (allocBlockIn g bgs d).2 (allocBlockIn g bgs d).1 := by
  induction bgs with
  | nil => exact Granted.none hd
  | cons bg bgs ih =>
    rw [allocBlockIn]
    split
    · exact ih
    simp only [hd.transfer]
    cases hf : firstFree g d bg with
    | none => exact ih
    | some bit =>
      have hfree := firstFree_spec hf
      have hg := hd.grab bg (g.blockOf bg bit) 1
      simp only [hg.writeBlock]
      refine ⟨hg.put _ _,fun x hx => ?_,fun x hx => update_of_ne hx _ _,
        fun _ => hfree,fun _ => ?_⟩
      · exact if_neg (by omega)
      · exact if_pos (by omega)

/-- `ext4_alloc_block` hands out a block that was free, and touches no other. -/
theorem allocBlock_granted (hd : Calm d) :
    Granted d (allocBlock g d).2 (allocBlock g d).1 := by
  simp only [allocBlock,hd.kzalloc]
  exact allocBlockIn_granted hd _

/-! ### Supply -/

/-- The bitmaps agree, and so do the counters of the groups. -/
structure SameBits (d d' : Fs) : Prop where
  used : d'.used = d.used
  groups : d'.freeBlocks = d.freeBlocks

/-- The allocator looks at the bitmaps and at the counters of the groups alone. -/
theorem allocBlockIn_bits (hd : Calm d) (hd' : Calm d') (hs : SameBits d d') (bgs : List Nat) :
    (allocBlockIn g bgs d').1 = (allocBlockIn g bgs d).1 ∧
      SameBits (allocBlockIn g bgs d).2 (allocBlockIn g bgs d').2 := by
  induction bgs with
  | nil => exact ⟨rfl,hs⟩
  | cons bg bgs ih =>
    have hfirst : firstFree g d' bg = firstFree g d bg := by rw [firstFree,firstFree,hs.used]
    rw [allocBlockIn,allocBlockIn,hs.groups]
    split
    · exact ih
    simp only [hd.transfer,hd'.transfer,hfirst]
    cases firstFree g d bg with
    | none => exact ih
    | some bit =>
      simp only [(hd.grab bg (g.blockOf bg bit) 1).writeBlock,
        (hd'.grab bg (g.blockOf bg bit) 1).writeBlock]
      refine ⟨trivial,?_,?_⟩
      · simp only [Fs.put,Fs.grab,hs.used]
      · simp only [Fs.put,Fs.grab,hs.groups]

theorem allocBlock_bits (hd : Calm d) (hd' : Calm d') (hs : SameBits d d') :
    (allocBlock g d').1 = (allocBlock g d).1 ∧ SameBits (allocBlock g d).2 (allocBlock g d').2 := by
  simp only [allocBlock,hd.kzalloc,hd'.kzalloc]
  exact allocBlockIn_bits hd hd' hs _

/-- The allocator has a block for each of the next `n` calls. -/
def Supplies (g : Geometry) : Nat → Fs → Prop
  | 0, _ => True
  | n+1, d => (allocBlock g d).1 ≠ 0 ∧ Supplies g n (allocBlock g d).2

namespace Supplies

variable {m n : Nat}

theorem mono (h : Supplies g n d) (hm : m ≤ n) : Supplies g m d := by
  induction m generalizing n d with
  | zero => trivial
  | succ m ih =>
    obtain ⟨n,rfl⟩ := Nat.exists_eq_add_of_lt (Nat.lt_of_succ_le hm)
    exact ⟨h.1,ih h.2 (Nat.le_add_right ..)⟩

theorem congr (h : Supplies g n d) (hd : Calm d) (hd' : Calm d') (hs : SameBits d d') :
    Supplies g n d' := by
  induction n generalizing d d' with
  | zero => trivial
  | succ n ih =>
    obtain ⟨h1,h2⟩ := allocBlock_bits hd hd' hs
    exact ⟨h1 ▸ h.1,ih h.2 (allocBlock_granted hd).calm (allocBlock_granted hd').calm h2⟩

theorem put (h : Supplies g n d) (hd : Calm d) (b : Nat) (c : Block) : Supplies g n (d.put b c) :=
  h.congr hd (hd.put b c) ⟨rfl,rfl⟩

end Supplies

/-! ### Runs of blocks -/

/-- A run of blocks was handed out, possibly an empty one. -/
structure GrantedRun (d d' : Fs) (b n : Nat) : Prop where
  calm : Calm d'
  blocks : d'.blocks = d.blocks
  free : ∀ x, b ≤ x → x < b+n → d.used x = false
  used : ∀ x, d'.used x = if b ≤ x ∧ x < b+n then true else d.used x

theorem GrantedRun.none (hd : Calm d) : GrantedRun d d 0 0 :=
  ⟨hd,rfl,fun x _ h => absurd h (Nat.not_lt_zero x),fun x => (if_neg (by omega)).symm⟩

theorem runLength_free {bg bit want k : Nat} (h : k < runLength g d bg bit want) :
    d.used (g.blockOf bg (bit+k)) = false := by
  -- the free bits are an initial piece of the range, so its `k`-th element is `k`
  set l := (List.range (min want (g.blocksPerGroup-bit))).takeWhile fun k =>
    !d.used (g.blockOf bg (bit+k)) with hl
  have hk : k < l.length := h
  have hpre : l <+: List.range (min want (g.blocksPerGroup-bit)) := takeWhile_prefix _
  have hget : l[k] = k := by
    rw [hpre.getElem hk,getElem_range]
  have hmem : k ∈ l := hget ▸ getElem_mem hk
  simpa using mem_takeWhile_imp hmem

theorem runLength_le (bg bit want : Nat) : runLength g d bg bit want ≤ want := by
  have h : runLength g d bg bit want ≤ (List.range (min want (g.blocksPerGroup-bit))).length :=
    (List.takeWhile_prefix _).length_le
  rw [length_range] at h
  omega

theorem allocRunIn_granted (hd : Calm d) (want : Nat) {bgs : List Nat} (hbgs : ∀ bg ∈ bgs, bg < g.groupsCount) :
    GrantedRun d (allocRunIn g want bgs d).2 (allocRunIn g want bgs d).1.1
      (allocRunIn g want bgs d).1.2 ∧ (allocRunIn g want bgs d).1.2 ≤ want ∧
      (allocRunIn g want bgs d).1.1 < 0x1000000000000 := by
  induction bgs with
  | nil => exact ⟨GrantedRun.none hd,Nat.zero_le _,Nat.zero_lt_succ _⟩
  | cons bg bgs ih =>
    obtain ⟨hbg,hbgs⟩ := forall_mem_cons.mp hbgs
    rw [allocRunIn]
    split
    · exact ih hbgs
    simp only [hd.transfer]
    cases hf : firstFree g d bg with
    | none => exact ih hbgs
    | some bit =>
      refine ⟨⟨hd.grab _ _ _,rfl,fun x h1 h2 => ?_,fun _ => rfl⟩,runLength_le ..,firstFree_lt hbg hf⟩
      change g.blockOf bg bit ≤ x at h1
      change x < g.blockOf bg bit+runLength g d bg bit want at h2
      have hx : g.blockOf bg (bit+(x-g.blockOf bg bit)) = x := by
        simp only [Geometry.blockOf] at h1 ⊢
        omega
      have hk : x-g.blockOf bg bit < runLength g d bg bit want := by omega
      exact hx ▸ runLength_free hk

/-- `ext4_alloc_block_run` hands out a run of free blocks, no longer than was asked for. -/
theorem allocBlockRun_granted (hd : Calm d) {want : Nat} (hw : 0 < want) :
    GrantedRun d (allocBlockRun g d want).2 (allocBlockRun g d want).1.1
      (allocBlockRun g d want).1.2 ∧ (allocBlockRun g d want).1.2 ≤ min want 32768 ∧
      (allocBlockRun g d want).1.1 < 0x1000000000000 := by
  simp only [allocBlockRun,hd.kzalloc,if_neg (ne_of_gt hw)]
  exact allocRunIn_granted hd _ fun _ => mem_range.mp

theorem freeBlock_spec (hd : Calm d) (b : Nat) :
    Calm (freeBlock g d b) ∧ (freeBlock g d b).blocks = d.blocks ∧
      ∀ x, x ≠ b → (freeBlock g d b).used x = d.used x := by
  simp only [freeBlock,hd.kzalloc,hd.transfer]
  split
  · exact ⟨hd,rfl,fun _ _ => rfl⟩
  split
  · exact ⟨hd,rfl,fun _ _ => rfl⟩
  · split
    · exact ⟨⟨hd.heap,hd.io⟩,rfl,fun x hx => update_of_ne hx _ _⟩
    · exact ⟨hd,rfl,fun _ _ => rfl⟩

theorem freeRun_spec (hd : Calm d) (b n : Nat) :
    Calm (freeRun g d b n) ∧ (freeRun g d b n).blocks = d.blocks ∧
      ∀ x, x ∉ List.range' b n → (freeRun g d b n).used x = d.used x := by
  induction n generalizing d b with
  | zero => exact ⟨hd,rfl,fun _ _ => rfl⟩
  | succ n ih =>
    obtain ⟨h1,h2,h3⟩ := freeBlock_spec hd b
    obtain ⟨i1,i2,i3⟩ := ih h1 (b+1)
    refine ⟨i1,i2.trans h2,fun x hx => ?_⟩
    rw [range'_succ] at hx
    obtain ⟨hb,hr⟩ := not_or.mp (mt mem_cons.mpr hx)
    exact (i3 x hr).trans (h3 x hb)

/-! ### Blocks given back -/

def Geometry.groupOf (g : Geometry) (b : Nat) : Nat := (b-g.firstDataBlock) / g.blocksPerGroup

/-- A block that a bitmap of the volume has a bit for. -/
def Geometry.Covers (g : Geometry) (b : Nat) : Prop :=
  g.firstDataBlock ≤ b ∧ g.groupOf b < g.groupsCount

/-- The bits of `gone` were cleared, each of them once, and no other. -/
structure Freed (g : Geometry) (d d' : Fs) (gone : List Nat) : Prop where
  used : ∀ b, d'.used b = (d.used b && !decide (b ∈ gone))
  groups : ∀ bg, d'.freeBlocks bg = d.freeBlocks bg+.ofNat 16 (gone.countP fun b => g.groupOf b = bg)
  total : d'.sbFreeBlocks = d.sbFreeBlocks+.ofNat 32 gone.length

namespace Freed

variable {gone gone' : List Nat} {d'' : Fs}

theorem refl (g : Geometry) (d : Fs) : Freed g d d [] :=
  ⟨fun b => by simp,fun bg => by simp,by simp⟩

theorem trans (h1 : Freed g d d' gone) (h2 : Freed g d' d'' gone') : Freed g d d'' (gone ++ gone') where
  used := fun b => by
    rw [h2.used,h1.used,Bool.and_assoc]
    simp only [mem_append,Bool.decide_or,Bool.not_or]
  groups := fun bg => by
    rw [h2.groups,h1.groups,countP_append,BitVec.ofNat_add,BitVec.add_assoc]
  total := by
    rw [h2.total,h1.total,length_append,BitVec.ofNat_add,BitVec.add_assoc]

theorem congr (h : Freed g d d' gone) (hp : gone.Perm gone') : Freed g d d' gone' where
  used := fun b => by rw [h.used,decide_eq_decide.mpr hp.mem_iff]
  groups := fun bg => by rw [h.groups,hp.countP_eq]
  total := by rw [h.total,hp.length_eq]

theorem kept (h : Freed g d d' gone) {b : Nat} (hb : b ∉ gone) : d'.used b = d.used b := by
  rw [h.used,decide_eq_false hb,Bool.not_false,Bool.and_true]

end Freed

theorem freeBlock_freed (hd : Calm d) {b : Nat} (hb : g.Covers b) (hu : d.used b = true) :
    Freed g d (freeBlock g d b) [b] := by
  obtain ⟨h1,h2⟩ := hb
  rw [Geometry.groupOf] at h2
  simp only [freeBlock,hd.kzalloc,hd.transfer,hu,if_true,if_neg (not_lt.mpr h1),
    if_neg (not_le.mpr h2)]
  refine ⟨fun a => ?_,fun bg => ?_,rfl⟩
  · by_cases ha : a = b
    · subst ha
      simp
    · simp [ha]
  · by_cases hg : bg = g.groupOf b
    · subst hg
      rw [countP_singleton,decide_eq_true rfl]
      exact update_self ..
    · rw [countP_singleton,decide_eq_false (Ne.symm hg)]
      exact (update_of_ne hg _ _).trans (BitVec.add_zero _).symm

theorem freeRun_freed (hd : Calm d) (b n : Nat)
    (hb : ∀ a ∈ List.range' b n, g.Covers a ∧ d.used a = true) :
    Freed g d (freeRun g d b n) (List.range' b n) := by
  induction n generalizing d b with
  | zero => exact .refl g d
  | succ n ih =>
    rw [range'_succ] at hb ⊢
    obtain ⟨⟨h1,h2⟩,hr⟩ := forall_mem_cons.mp hb
    have hf := freeBlock_freed hd h1 h2
    refine hf.trans (ih (freeBlock_spec hd b).1 (b+1) fun a ha => ⟨(hr a ha).1,?_⟩)
    rw [hf.kept,(hr a ha).2]
    have := mem_range'_1.mp ha
    simp
    omega

end Lariat.Ext4
