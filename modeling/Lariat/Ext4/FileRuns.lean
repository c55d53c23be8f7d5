import Lariat.Ext4.SortedInsertion
import Lariat.Ext4.Truncation

/-! Runs of writes, seeks and truncations through one handle. -/
namespace Lariat.Ext4
open Foundation.BlockTree Foundation.Runs List

variable {g : Geometry} {d d' : Fs} {ino : Inode} {root : Node} {H : Nat} {t : Tree Extent H}
  {extra : List Nat} {lblk : Nat}

namespace Rep

theorem put (hr : Rep g d root H t extra) {b : Nat} (hb : b ∉ addrs H t) (c : Block) :
    Rep g (d.put b c) root H t extra where
  calm := hr.calm.put b c
  height := hr.height
  root := hr.root
  stored := hr.stored.update hb c
  full := hr.full
  sorted := hr.sorted
  nodup := hr.nodup
  held := hr.held

theorem reserve {b n : Nat} (hr : Rep g d root H t []) (hg : GrantedRun d d' b n) (hb : b ≠ 0) :
    Rep g d' root H t (List.range' b n) := by
  have hr' := hr.keeps hg.keeps
  refine { hr' with nodup := ?_, held := ?_ }
  · refine nodup_append.mpr ⟨by simpa using hr.nodup,nodup_range',fun a ha c hc hac => ?_⟩
    obtain ⟨h1,h2⟩ := mem_range'_1.mp hc
    exact hr.notMem (hg.free c h1 h2) (by simpa [hac] using ha)
  · intro a ha
    rcases mem_append.mp ha with ha | ha
    · exact hr'.held a (by simpa using ha)
    · obtain ⟨h1,h2⟩ := mem_range'_1.mp ha
      exact ⟨by omega,by rw [hg.used,if_pos ⟨h1,h2⟩]⟩

theorem release {b n : Nat} (hr : Rep g d root H t (List.range' b n)) :
    Rep g (freeRun g d b n) root H t [] := by
  obtain ⟨h1,h2,h3⟩ := freeRun_spec hr.calm b n
  refine ⟨h1,hr.height,hr.root,hr.stored.congr fun a _ => congrFun h2 a,hr.full,hr.sorted,?_,?_⟩
  · rw [append_nil]
    exact (nodup_append.mp hr.nodup).1
  · intro a ha
    rw [append_nil] at ha
    obtain ⟨h0,hu⟩ := hr.held a (mem_append_left _ ha)
    refine ⟨h0,(h3 a fun hmem => ?_).trans hu⟩
    exact (nodup_append.mp hr.nodup).2.2 a ha a hmem rfl

section Tree

variable (hr : Rep g d root H t extra)
include hr

theorem magic : root.magic = extentMagic := by
  rw [hr.root,content_magic]

theorem descent : H < descentMax :=
  lt_trans hr.height (by decide)

theorem data_notMem {b : Nat} (hb : b ∈ physBlocks (flat H t)) : b ∉ addrs H t := fun ha =>
  (nodup_append.mp (nodup_append.mp hr.nodup).1).2.2 b ha b hb rfl

theorem start_ne_zero : ∀ e ∈ flat H t, (e.start : Nat) ≠ 0 := by
  intro e he
  have hpos := (hr.sorted.sane e he).1
  have hmem : (e.start : Nat) ∈ physBlocks (flat H t) :=
    mem_flatMap.mpr ⟨e,he,mem_range'_1.mpr ⟨le_refl _,by omega⟩⟩
  exact (hr.held _ (by simp [hmem])).1

end Tree

theorem findExtentBlock_eq (hr : Rep g d ino.root H t extra) (lblk : Nat) :
    findExtentBlock d ino lblk = (some (lookup (flat H t) lblk),d) := by
  rw [findExtentBlock,if_neg (not_not.mpr hr.magic),hr.calm.kzalloc]
  simp only [hr.root]
  exact findExtentLoop_eq hr.calm hr.stored hr.full _ _ hr.descent hr.sorted

theorem treeEnd_eq (hr : Rep g d ino.root H t extra) :
    treeEnd d ino = (some (((flat H t).getLast?.map Extent.stop).getD 0),d) := by
  rw [treeEnd,if_neg (not_not.mpr hr.magic)]
  simp only [hr.root]
  exact treeEndLoop_eq hr.calm hr.stored hr.full _ _ _ hr.descent

end Rep

/-- A hole is backed by a run of which no block is mapped. -/
theorem backHole_spec (want : Nat) (hr : Rep g d ino.root H t []) (hw : 0 < want)
    (hsane : lblk+want < 0x100000000)
    (hfree : ∀ c, lblk ≤ c → c < lblk+want → ¬ Mapped (flat H t) c) :
    (∃ ino' d' H', ∃ t' : Tree Extent H', backHole g ino d lblk want = some (none,ino',d') ∧
      Rep g d' ino'.root H' t' [] ∧ flat H' t' = flat H t) ∨
    ∃ nb : Fin _, ∃ got ino' d' H', ∃ t' : Tree Extent H',
      backHole g ino d lblk want = some (some nb.val,ino',d') ∧ 0 < got ∧ got ≤ want ∧
      Rep g d' ino'.root H' t' [] ∧ Inserted ⟨lblk,got,nb⟩ (flat H t) (flat H' t') := by
  obtain ⟨hg,hgot,hlt⟩ := allocBlockRun_granted hr.calm hw
  rcases halloc : allocBlockRun g d want with ⟨⟨nb,got⟩,d1⟩
  rw [halloc] at hg hgot hlt
  change got ≤ min want 32768 at hgot
  obtain ⟨nb,rfl⟩ : ∃ n : Fin 0x1000000000000, n.val = nb := ⟨⟨nb,hlt⟩,rfl⟩
  simp only [backHole,halloc,Fin.ofNat_val_eq_self]
  split_ifs with hz
  · exact .inl ⟨ino,d1,H,t,rfl,hr.keeps hg.keeps,rfl⟩
  obtain ⟨hnb,hg0⟩ := not_or.mp hz
  have hr1 := hr.reserve hg hnb
  have hx : (Extent.mk lblk got nb).Sane := ⟨Nat.pos_of_ne_zero hg0,by simp only; omega⟩
  simp only [hr1.treeEnd_eq]
  have hout : Outcome g ⟨lblk,got,nb⟩ (flat H t)
      (if ((flat H t).getLast?.map Extent.stop).getD 0 ≤ lblk then
        extentAppend g ino d1 ⟨lblk,got,nb⟩ else extentMap g ino d1 ⟨lblk,got,nb⟩) := by
    split
    · rename_i hend
      obtain ⟨k,hi⟩ := extentAppendFrom_insertion 8 hr1.calm hr1.rooted (before_of_end hr.sorted hend) hx
      exact hi.outcome hr1
    have ha : Apart ⟨lblk,got,nb⟩ (flat H t) :=
      apart_of_unmapped hx.1 hr.sorted.sane fun c hc =>
        hfree c hc.1 (lt_of_lt_of_le hc.2 (by simp only; omega))
    obtain ⟨k,hi⟩ := extentMap_insertion hr1.calm hr1.rooted ha hx
    exact hi.outcome hr1
  generalize (if ((flat H t).getLast?.map Extent.stop).getD 0 ≤ lblk then
    extentAppend g ino d1 ⟨lblk,got,nb⟩ else extentMap g ino d1 ⟨lblk,got,nb⟩) = r at hout ⊢
  cases hout with
  | @failed ino' d' H' t' h1 h2 => exact .inl ⟨ino',_,H',t',rfl,h1.release,h2⟩
  | @done ino' d' H' t' h1 h2 =>
    exact .inr ⟨nb,got,_,d',H',t',rfl,hx.1,by omega,h1,h2⟩

/-! ### One write -/

/-- Within the range of a write, no mapped block follows a hole so closely that the run for
the hole can reach it. -/
def HolesClear (es : List Extent) (first last : Nat) : Prop :=
  ∀ a b, first ≤ a → a < b → b ≤ last → b < a+2048 → ¬ Mapped es a → ¬ Mapped es b

theorem HolesClear.mono {es : List Extent} {first first' last : Nat} (h : HolesClear es first last)
    (hf : first ≤ first') : HolesClear es first' last :=
  fun a b h1 => h a b (le_trans hf h1)

/-- Backing the first hole leaves the rest of the range clear. -/
theorem HolesClear.inserted {es es' : List Extent} {x : Extent} {last : Nat}
    (h : HolesClear es x.block last) (hi : Inserted x es es') : HolesClear es' x.block last := by
  intro a b h1 h2 h3 h4 ha
  rw [hi.mapped,not_or] at ha ⊢
  refine ⟨h a b h1 h2 h3 h4 ha.1,fun hb => ha.2 ⟨h1,?_⟩⟩
  exact lt_trans h2 hb.2

section Write

variable {w : Writer} {count last : Nat}

section

variable (hr : Rep g w.fs w.ino.root H t [])
  (hlast : (w.pos+(count-w.written)-1) / g.blockSize = last) (hl : last < 0xffffffff)
  (hc : HolesClear (flat H t) (w.pos / g.blockSize) last)
include hr hlast hl hc

/-- The block of one round of the loop: its content may be written without touching the
tree. -/
theorem writeTarget_spec (hrem : w.written < count) :
    ∃ target w' H', ∃ t' : Tree Extent H', writeTarget g count w = some (target,w') ∧
      w'.pos = w.pos ∧ w'.written = w.written ∧ Rep g w'.fs w'.ino.root H' t' [] ∧
      (∀ b ∈ target, b ∉ addrs H' t') ∧
      (target ≠ none → HolesClear (flat H' t') (w.pos / g.blockSize) last) := by
  have hle : w.pos / g.blockSize ≤ last := hlast ▸ Nat.div_le_div_right (by omega)
  have hlblk : u32 (w.pos / g.blockSize) = w.pos / g.blockSize := Nat.mod_eq_of_lt (by omega)
  have hlastb : u32 ((w.pos+(count-w.written)-1) / g.blockSize) = last := by
    rw [hlast]
    exact Nat.mod_eq_of_lt (by omega)
  have hwant : u32 (last+0x100000000-w.pos / g.blockSize+1) = last-w.pos / g.blockSize+1 := by
    simp only [u32]
    omega
  simp only [writeTarget,hlblk,hlastb,hwant,hr.findExtentBlock_eq]
  by_cases hz : lookup (flat H t) (w.pos / g.blockSize) = 0
  · have hhole := (lookup_eq_zero_iff hr.sorted.sane hr.start_ne_zero).mp hz
    have hfree : ∀ c, w.pos / g.blockSize ≤ c →
        c < w.pos / g.blockSize+min (last-w.pos / g.blockSize+1) 2048 → ¬ Mapped (flat H t) c := by
      intro c h1 h2
      rcases eq_or_lt_of_le h1 with rfl | h1
      · exact hhole
      · exact hc _ c (le_refl _) h1 (by omega) (by omega) hhole
    rw [if_pos hz]
    rcases backHole_spec (min (last-w.pos / g.blockSize+1) 2048) hr (by omega) (by omega) hfree
      with ⟨ino',d',H',t',h1,h2,h3⟩ | ⟨nb,got,ino',d',H',t',h1,h2,h3,h4,h5⟩
    · simp only [h1]
      exact ⟨none,_,H',t',rfl,rfl,rfl,h2,by simp,fun h0 => absurd rfl h0⟩
    simp only [h1]
    refine ⟨some nb.val,_,H',t',rfl,rfl,rfl,h4,?_,fun _ => hc.inserted h5⟩
    rintro b ⟨⟩
    refine h4.data_notMem (h5.phys.mem_iff.mpr (mem_append_right _ ?_))
    exact mem_range'_1.mpr ⟨le_refl _,by simp only; omega⟩
  · have hdata := hr.data_notMem (lookup_mem_physBlocks hr.sorted.sane hz)
    rw [if_neg hz]
    simp only [hr.calm.readBlock]
    split
    all_goals
      refine ⟨_,_,H,t,rfl,rfl,rfl,hr,?_,fun _ => hc⟩
      rintro b ⟨⟩
      exact hdata

theorem writeLoop_spec (src : Bytes) (fuel : Nat) :
    ∃ w' H', ∃ t' : Tree Extent H', writeLoop g src count fuel w = some w' ∧
      Rep g w'.fs w'.ino.root H' t' [] := by
  induction fuel generalizing w H with
  | zero => exact ⟨w,H,t,rfl,hr⟩
  | succ fuel ih =>
    rw [writeLoop]
    split
    · exact ⟨w,H,t,rfl,hr⟩
    rename_i hrem
    rw [not_le] at hrem
    obtain ⟨target,w1,H1,t1,h1,h2,h3,h4,h5,h6⟩ := writeTarget_spec hr hlast hl hc hrem
    rw [h1]
    cases target with
    | none => exact ⟨w1,H1,t1,rfl,h4⟩
    | some b =>
      simp only [h4.calm.writeBlock,h2,h3]
      refine ih (h4.put (h5 b rfl) _) ?_ ?_
      · rw [← hlast]
        congr 1
        simp only
        omega
      · refine (h6 (by simp)).mono ?_
        exact Nat.div_le_div_right (Nat.le_add_right ..)

end

end Write

/-! ### Runs -/

/-- The extents of a tree in order of their logical blocks, no block in two of them. -/
def LogicallyDisjoint (es : List Extent) : Prop :=
  es.Pairwise fun a b => a.block < b.block ∧ ∀ lblk, ¬ (a.Covers lblk ∧ b.Covers lblk)

theorem Sorted.disjoint {es : List Extent} (hs : Sorted es) : LogicallyDisjoint es := by
  have hpw : es.Pairwise fun a b => a ∈ es ∧ a.Before b :=
    List.Pairwise.and_mem.mp hs.before |>.imp fun h => ⟨h.1,h.2.2⟩
  refine hpw.imp fun {a b} h => ?_
  have hpos := (hs.sane a h.1).1
  have hab := h.2
  simp only [Extent.Before] at hab
  refine ⟨by omega,fun lblk hc => ?_⟩
  have h1 := hc.1.2
  have h2 := hc.2.1
  omega

/-- What the driver relies on for a call: the memory it asks for is there, and a write does
not map a run over blocks that are mapped already. -/
def Event.Safe (g : Geometry) (f : File) : Event → Prop
  | .write _ count => 0 < count → (f.pos.toNat+count-1) / g.blockSize < 0xffffffff ∧
      HolesClear f.extents (f.pos.toNat / g.blockSize) ((f.pos.toNat+count-1) / g.blockSize)
  | .shortage heap => heap = []
  | _ => True

variable (g)

/-- The inode of an open file stands for a tree. -/
def InOrder (f : File) : Prop := ∃ H, ∃ t : Tree Extent H, Rep g f.fs f.ino.root H t []

variable {g} {f : File} {e : Event}

theorem Rep.extents_eq (hr : Rep g f.fs f.ino.root H t extra) : f.extents = flat H t := by
  rw [File.extents,hr.root,content_depth]
  exact extentsBelow_eq _ hr.stored

theorem InOrder.disjoint (h : InOrder g f) : LogicallyDisjoint f.extents := by
  obtain ⟨H,t,hr⟩ := h
  exact hr.extents_eq ▸ hr.sorted.disjoint

theorem writeInode_eq (hd : Calm f.fs) : writeInode f = (true,{ f with saved := f.ino }) := by
  simp only [writeInode,hd.kzalloc,hd.transfer]

theorem InOrder.write (h : InOrder g f) (src : Bytes) {count : Nat}
    (hs : (Event.write src count).Safe g f) :
    ∃ r f', fileWrite g f src count = some (r,f') ∧ InOrder g f' := by
  obtain ⟨H,t,hr⟩ := h
  obtain ⟨w,H',t',hloop,hr'⟩ : ∃ w H', ∃ t' : Tree Extent H',
      writeLoop g src count count
        { ino := f.ino, fs := f.fs, pos := f.pos.toNat, size := f.ino.size } = some w ∧
      Rep g w.fs w.ino.root H' t' [] := by
    rcases Nat.eq_zero_or_pos count with rfl | hpos
    · exact ⟨_,H,t,rfl,hr⟩
    · obtain ⟨h1,h2⟩ := hs hpos
      rw [hr.extents_eq] at h2
      exact writeLoop_spec hr rfl h1 h2 src count
  simp only [fileWrite,hr.calm.kzalloc,hloop]
  split
  · exact ⟨_,_,rfl,H',t',hr'⟩
  · refine ⟨_,_,rfl,H',t',?_⟩
    have hw := writeInode_eq (f := { f with ino := { w.ino with size := w.size }, fs := w.fs }) hr'.calm
    rw [hw]
    exact hr'

theorem InOrder.truncate (h : InOrder g f) (length : Int) :
    ∃ r f', fileTruncate g f length = some (r,f') ∧ InOrder g f' := by
  rw [fileTruncate]
  split
  · exact ⟨_,f,rfl,h⟩
  obtain ⟨H,t,hr⟩ := h
  obtain ⟨ino',d',H',t',h1,h2,-⟩ :=
    freeBlocksFrom_spec (u32 ((length.toNat+g.blockSize-1) / g.blockSize)) hr
  have hw := writeInode_eq (f := { f with ino := { ino' with size := length.toNat }, fs := d'
                                          pos := min f.pos length }) h2.calm
  simp only [h1,hw]
  exact ⟨_,_,rfl,H',t',h2⟩

theorem InOrder.step (h : InOrder g f) (hs : e.Safe g f) :
    ∃ f', Ext4.step g f e = some f' ∧ InOrder g f' := by
  cases e with
  | write src count =>
    obtain ⟨r,f',h1,h2⟩ := h.write src hs
    exact ⟨f',by simp [Ext4.step,h1],h2⟩
  | lseek offset whence =>
    refine ⟨_,rfl,?_⟩
    obtain ⟨H,t,hr⟩ := h
    simp only [fileLseek]
    split <;> exact ⟨H,t,hr⟩
  | truncate length =>
    obtain ⟨r,f',h1,h2⟩ := h.truncate length
    exact ⟨f',by simp [Ext4.step,h1],h2⟩
  | shortage heap =>
    obtain ⟨H,t,hr⟩ := h
    have hheap : heap = f.fs.heap := (hs : heap = []).trans hr.calm.heap.symm
    exact ⟨_,rfl,H,t,by rw [hheap]; exact hr⟩

theorem opened_inOrder (hd : Calm d) : InOrder g (opened d) :=
  ⟨0,leaf [],hd,by decide,rfl,trivial,.inl rfl,sorted_nil,by simp,by simp⟩

/-- A file made by `ext4_init_extent_inode`: in every run whose calls are safe, the extents
of its tree stay sorted and disjoint, and the run completes. -/
theorem extents_stay_disjoint (g : Geometry) (d : Fs) (hheap : d.heap = []) (hio : d.io = [])
    (es : List Event) (h : Along (step g) (fun f e => e.Safe g f) (opened d) es) :
    Always (step g) (fun f => LogicallyDisjoint f.extents) (opened d) es ∧
      ∃ f, exec (step g) (opened d) es = some f := by
  have hopen : InOrder g (opened d) := opened_inOrder ⟨hheap,hio⟩
  refine ⟨always_of_along (fun f (hf : InOrder g f) => hf.disjoint) ?_ _ es hopen h,
    h.completes hopen fun f e hf hs => hf.step hs⟩
  intro f e f' hf hs hstep
  obtain ⟨f1,h1,h2⟩ := hf.step hs
  rw [hstep] at h1
  cases h1
  exact h2

/-- Block 5 of a sparse file, then its first three blocks, then a cut in the middle. -/
def sparseRun : List Event :=
  [.lseek 5120 0,.write (fun _ => 1) 1,.lseek 0 0,.write (fun _ => 2) 3072,.truncate 1500]

theorem extents_stay_disjoint_sparseRun :
    Always (step smallGeometry) (fun f => LogicallyDisjoint f.extents) (opened smallVolume)
        sparseRun ∧ ∃ f, exec (step smallGeometry) (opened smallVolume) sparseRun = some f := by
  refine extents_stay_disjoint smallGeometry smallVolume rfl rfl sparseRun
    (.cons trivial rfl (.cons (fun _ => ⟨by decide,?_⟩) rfl (.cons trivial rfl
      (.cons (fun _ => ⟨by decide,?_⟩) rfl (.cons trivial rfl trivial)))))
  · intro a b h1 h2 h3
    change 5 ≤ a at h1
    change b ≤ 5 at h3
    omega
  · intro a b h1 h2 h3 _ _
    change b ≤ 2 at h3
    change ¬ Mapped [⟨5,1,10⟩] b
    simp [Mapped,Extent.Covers]
    omega

/-- Without memory for its block buffer the lookup calls a mapped block a hole, and the
block is mapped again. -/
example : (exec (step smallGeometry) (opened smallVolume)
    [.write (fun _ => 1) 1,.lseek 0 0,.shortage [false,true],.write (fun _ => 2) 1]).map
      File.extents = some [⟨0,1,10⟩,⟨0,1,11⟩] := rfl

/-- Block 2 of a file, and then its first four blocks in one write. -/
def backSeekRun : List Event :=
  [.lseek 2048 0,.write (fun _ => 1) 1,.lseek 0 0,.write (fun _ => 2) 4096]

/-- The second write finds a hole at block 0 and maps four blocks, block 2 a second time. -/
theorem backSeek_write_overlaps :
    ∃ f, exec (step smallGeometry) (opened smallVolume) backSeekRun = some f ∧
      f.extents = [⟨0,4,11⟩,⟨2,1,10⟩] ∧ ¬ LogicallyDisjoint f.extents := by
  refine ⟨_,rfl,rfl,fun h => ?_⟩
  have hpair := (pairwise_cons.mp h).1 ⟨2,1,10⟩ (mem_cons_self ..)
  exact hpair.2 2 ⟨⟨by decide,by decide⟩,⟨by decide,by decide⟩⟩

end Lariat.Ext4
