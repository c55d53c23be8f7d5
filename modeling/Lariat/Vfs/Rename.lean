import Lariat.Vfs.Calls
import Mathlib.Data.List.TakeDrop

/-! When a rename moves all bytes of a file or none: it empties the new file, copies what
it can read and write, and removes the old name without a look at how far it got. -/
namespace Lariat.Vfs
open Foundation.NameTree Option List

/-- A path leads to a file of these bytes. -/
def HoldsBytes (s : Fs) (path : Path) (bs : List Byte) : Prop :=
  ∃ e, vfsLookupPath s.tree path = some e ∧ (s.inode e.node).data = bs

/-- Two paths lead to one file. -/
def SameFile (s : Fs) (o n : Path) : Prop :=
  ∃ e x, vfsLookupPath s.tree o = some e ∧ vfsLookupPath s.tree n = some x ∧ x.node = e.node

/-- The end of a rename of a regular file: if it reports success it has moved the file,
and otherwise it has left it where it was. -/
structure AllOrNothing (s : Fs) (c : Caller) (oldp newp : Path) (r : BitVec 64 × Fs) : Prop where
  moved : ∀ o n e, cwdJoin c.cwd oldp = some o → cwdJoin c.cwd newp = some n →
    vfsLookupPath s.tree o = some e → isReg (s.inode e.node).mode → r.1 = 0 →
    HoldsBytes r.2 n (s.inode e.node).data ∧ vfsLookupPath r.2.tree o = none ∨ SameFile s o n ∧ r.2 = s
  kept : ∀ o e, cwdJoin c.cwd oldp = some o → vfsLookupPath s.tree o = some e →
    isReg (s.inode e.node).mode → r.1 ≠ 0 → HoldsBytes r.2 o (s.inode e.node).data

/-- The rename of a regular file gets both paths open. -/
structure Copying (s : Fs) (c : Caller) (oldp newp : Path) (l : RenameLuck) (o n : Path) (e : Dentry) :
    Prop extends Renaming s c oldp newp l o n e where
  regular : isReg (s.inode e.node).mode
  opened : (vfsOpen s n O_NEW l.dst).2.isSome

/-- The old path ends in the name `N` of a directory `D`, which can be removed. The new
path leads to a plain file, or nowhere and fits the buffers. -/
structure Ordinary (s : Fs) (o n : Path) (e : Dentry) (l : RenameLuck) (D : Dentry) (N : Name) (i : Nat) :
    Prop where
  link : isLnk (s.inode e.node).mode = false
  ops : (s.inode e.node).fileOps
  unlink : l.unlink
  fits : Fits s.tree o
  name : EndsInName o
  parent : vfsLookupParent s.tree o = some (D,N)
  child : s.tree.child D.node N = some i
  file : isDir (s.inode i).mode = false
  found : ∀ x, vfsLookupPath s.tree n = some x → isDir (s.inode x.node).mode = false ∧
    isLnk (s.inode x.node).mode = false ∧ (s.inode x.node).fileOps ∧ l.dst.truncate
  missing : vfsLookupPath s.tree n = none → Fits s.tree n

/-- How many bytes of a file a rename moves. -/
def RenameLuck.moved (l : RenameLuck) (x : Inode) : Nat :=
  min (l.write.getD 0) (min x.size (l.read.getD 0))

/-- The new path leads to another file unless there is nothing to lose, all bytes are
read and written, and the new path does not lead through the old name. -/
structure Lossless (s : Fs) (n : Path) (e : Dentry) (l : RenameLuck) (D : Dentry) (N : Name) : Prop where
  same : ∀ x, vfsLookupPath s.tree n = some x → x.node = e.node → (s.inode e.node).data = []
  full : l.buffer → (∀ x, vfsLookupPath s.tree n = some x → x.node ≠ e.node) →
    (s.inode e.node).data.length ≤ l.moved (s.inode e.node)
  found : l.buffer → ∀ x, vfsLookupPath s.tree n = some x → vfsLookupPath (s.tree.without D.node N) n = some x
  missing : l.buffer → vfsLookupPath s.tree n = none → ∀ d name, vfsLookupParent s.tree n = some (d,name) →
    vfsLookupParent (s.tree.without D.node N) n = some (d,name)

section Open

variable {s s' : Fs} {o n : Path} {e D : Dentry} {N : Name} {i : Nat} {l : RenameLuck} {dst : File}

theorem newInode_plain : isDir (newInode (S_IFREG ||| 0o644)).mode = false ∧
    isLnk (newInode (S_IFREG ||| 0o644)).mode = false ∧ (newInode (S_IFREG ||| 0o644)).fileOps ∧
    (newInode (S_IFREG ||| 0o644)).data = [] := by
  decide

theorem entered_inode {d : Nat} {name : Name} {ok : Bool} (hd : d < s.fresh)
    (hc : s.create d name (S_IFREG ||| 0o644) ok = .ok s') :
    s'.inode s.fresh = newInode (S_IFREG ||| 0o644) ∧
      ∀ i, s'.tree.child d name = some i → i = s.fresh := by
  obtain ⟨_,_,rfl⟩ := create_ok hc
  exact ⟨Fs.addChild_new hd,fun _ => Fs.addChild_child hd⟩

/-- A new file that has been entered is where its path leads. -/
theorem entered_node {d x : Dentry} {name : Name} {ok : Bool} (hf : Fits s.tree n)
    (hnone : vfsLookupPath s.tree n = none) (hp : vfsLookupParent s.tree n = some (d,name))
    (hc : s.create d.node name (S_IFREG ||| 0o644) ok = .ok s')
    (hx : vfsLookupPath s'.tree n = some x) :
    s'.tree.child d.node name = some s.fresh ∧ x.node = s.fresh := by
  obtain ⟨hnew,hchild⟩ := entered_inode (Fs.parent_lt hp) hc
  refine vfsLookupPath_created (create_extends hc (Fs.parent_lt hp)) hf hp hnone hchild ?_ ?_ hx
  · simp only [Fs.tree,hnew]
    exact newInode_plain.2.1
  · cases hm : s.tree.mount s.fresh with
    | none => rfl
    | some m => exact absurd (s.mount_lt s.fresh m hm).1 (lt_irrefl _)

/-- The new file once it is open. -/
inductive NewFile (s : Fs) (n : Path) (s' : Fs) (i : Nat) : Prop where
  | found {x : Dentry} : vfsLookupPath s.tree n = some x → i = x.node → s'.tree = s.tree →
      (∀ j, j ≠ i → s'.inode j = s.inode j) → NewFile s n s' i
  | entered {d x : Dentry} {name : Name} : vfsLookupPath s.tree n = none →
      vfsLookupParent s.tree n = some (d,name) → s.tree.child d.node name = none →
      s'.tree.child d.node name = some i → vfsLookupPath s'.tree n = some x → x.node = i → i = s.fresh →
      (∀ j, j < s.fresh → (s'.inode j).data = (s.inode j).data) → NewFile s n s' i

/-- The state of a file that can be copied to. -/
structure Blank (s' : Fs) (dst : File) : Prop where
  lt : dst.inode < s'.fresh
  pos : dst.pos = 0
  dir : isDir (s'.inode dst.inode).mode = false
  link : isLnk (s'.inode dst.inode).mode = false
  ops : (s'.inode dst.inode).fileOps
  empty : (s'.inode dst.inode).data = []

theorem blank_of_openNode {x : Nat} {t : OpenLuck} (hlt : x < s.fresh) (hdir : isDir (s.inode x).mode = false)
    (hlink : isLnk (s.inode x).mode = false) (hops : (s.inode x).fileOps)
    (hempty : t.truncate ∨ (s.inode x).data = []) (hr : (openNode s x O_NEW t).2 = some dst) :
    Blank (openNode s x O_NEW t).1 dst := by
  obtain ⟨hdst,hhandle⟩ := openNode_file hr
  refine ⟨?_,openNode_pos (by decide) hr,?_,?_,?_,?_⟩
  · rw [hdst,openNode_fresh]
    exact hlt
  · rw [hdst,openNode_field (fun y => isDir y.mode) fun _ _ => rfl]
    exact hdir
  · rw [hdst,openNode_field (fun y => isLnk y.mode) fun _ _ => rfl]
    exact hlink
  · rw [hdst,openNode_field Inode.fileOps fun _ _ => rfl]
    exact hops
  · rw [hdst,openNode_data hlt]
    rcases hempty with ht | he
    · exact if_pos ⟨hhandle,by decide,hops,ht⟩
    · rw [he]
      exact ite_self _

theorem Ordinary.newFile (h : Ordinary s o n e l D N i) (ho : vfsOpen s n O_NEW l.dst = (s',some dst)) :
    NewFile s n s' dst.inode ∧ Blank s' dst := by
  obtain ⟨t,x,hx,rfl,hd,rfl | ⟨hnone,-,d,name,hp,hc⟩⟩ := vfsOpen_some ho
  · obtain ⟨hdir,hlink,hops,htrunc⟩ := h.found _ hx
    have hdst := (openNode_file hd).1
    refine ⟨.found hx hdst openNode_tree fun j hj => openNode_of_ne (hdst ▸ hj),?_⟩
    exact blank_of_openNode (Fs.lookup_lt hx) hdir hlink hops (.inl htrunc) hd
  obtain ⟨hchild,hnode⟩ := entered_node (h.missing hnone) hnone hp hc hx
  have hnew := (entered_inode (Fs.parent_lt hp) hc).1
  obtain ⟨_,hfree,_⟩ := create_ok hc
  have hdst := (openNode_file hd).1
  obtain ⟨hdir,hlink,hops,hdata⟩ := newInode_plain
  rw [← hnew,← hnode] at hdir hlink hops hdata
  refine ⟨.entered hnone hp hfree ?_ ?_ hdst.symm (hdst.trans hnode) fun j hj => ?_,?_⟩
  · rw [openNode_tree,hdst,hnode]
    exact hchild
  · rw [openNode_tree]
    exact hx
  · rw [openNode_of_ne (by rw [hnode]; exact ne_of_lt hj)]
    exact create_field hc (Fs.parent_lt hp) Inode.data (fun _ _ => rfl) hj
  · exact blank_of_openNode (Fs.lookup_lt hx) hdir hlink hops (.inr hdata) hd

theorem NewFile.data {i : Nat} (h : NewFile s n s' i) (he : e.node < s.fresh) (hne : i ≠ e.node) :
    (s'.inode e.node).data = (s.inode e.node).data := by
  cases h with
  | found _ _ _ hsame => rw [hsame _ hne.symm]
  | entered _ _ _ _ _ _ _ hsame => exact hsame _ he

end Open

section Copy

variable {s s' s'' : Fs} {c : Caller} {oldp newp o n : Path} {e D : Dentry} {N : Name} {i : Nat}
  {l : RenameLuck} {dst : File}

section

variable (h : Ordinary s o n e l D N i) (ho : vfsOpen s n O_NEW l.dst = (s',some dst))
include h ho

/-- What a rename leaves: the old name is gone, and the new file has what was read and
written. -/
theorem Ordinary.final (hr : Renaming s c oldp newp l o n e)
    (hs'' : s'' = copyFile s' (oldFile e) dst (s.inode e.node).mode hr.notDir (s.inode e.node).size l) :
    ∃ t, vfsUnlink s'' o l.unlink = .ok t ∧ t.tree = s'.tree.without D.node N ∧
      (t.inode dst.inode).data = (s'.inode e.node).data.take (l.moved (s.inode e.node)) := by
  obtain ⟨_,hblank⟩ := h.newFile ho
  have helt := Fs.lookup_lt hr.found
  have hext : s.tree.Extends s'.tree := vfsOpen_extends ho
  have hmode (j : Nat) (hj : j < s.fresh) : (s'.inode j).mode = (s.inode j).mode :=
    vfsOpen_field ho Inode.mode (fun _ _ => rfl) (fun _ _ => rfl) hj
  have htree : s''.tree = s'.tree := by
    rw [hs'']
    apply copyFile_tree hblank.lt
    · rw [h.link,hblank.link]
    · rw [Bool.eq_false_iff.mpr hr.notDir,hblank.dir]
  have hpar : vfsLookupParent s''.tree o = some (D,N) := by
    rw [htree]
    exact vfsLookupParent_extends hext h.parent
  have hfile : isDir (s''.inode i).mode = false := by
    subst hs''
    by_cases hid : i = dst.inode
    · rw [hid,copyFile_mode hblank.lt]
      exact Bool.eq_false_iff.mpr hr.notDir
    · rw [copyFile_of_ne hid,hmode _ (s.entry_lt D.node (N,i) (Fs.entry_mem h.child))]
      exact h.file
  refine ⟨s''.removeChild D.node N,?_,?_,?_⟩
  · rw [vfsUnlink,inParent_eq hpar,Fs.unlink,htree,(hext.child _ _ _ h.child).1]
    dsimp only
    rw [hfile,if_neg Bool.false_ne_true,if_pos h.unlink]
  · rw [Fs.tree_removeChild (Fs.parent_lt hpar),htree]
  · have hkeep : ((s''.removeChild D.node N).inode dst.inode).data = (s''.inode dst.inode).data :=
      Fs.setInode_field Inode.data (by rfl) _
    have hops : (s'.inode e.node).fileOps :=
      (vfsOpen_field ho Inode.fileOps (fun _ _ => rfl) (fun _ _ => rfl) helt).trans h.ops
    rw [hkeep,hs'']
    exact copyFile_data hblank.lt rfl hblank.pos hops hblank.ops hblank.empty

/-- The new path holds the old bytes afterwards just when nothing gets lost. -/
theorem Ordinary.holdsBytes_iff {t : Fs} (he : e.node < s.fresh) (hb : l.buffer)
    (htree : t.tree = s'.tree.without D.node N)
    (hdata : (t.inode dst.inode).data = (s'.inode e.node).data.take (l.moved (s.inode e.node))) :
    HoldsBytes t n (s.inode e.node).data ↔ Lossless s n e l D N := by
  obtain ⟨hnew,hblank⟩ := h.newFile ho
  have hold := hnew.data he
  have hext : s.tree.Extends s'.tree := vfsOpen_extends ho
  cases hnew with
  | @found x hx hdst hsame _ =>
    rw [hsame] at htree
    have hsub := Tree.without_extends s.tree D.node N
    constructor
    · rintro ⟨y,hy,hyd⟩
      rw [htree] at hy
      obtain rfl := some.inj (hx.symm.trans (vfsLookupPath_extends hsub hy))
      rw [← hdst,hdata] at hyd
      refine ⟨fun z hz hze => ?_,fun _ hne => ?_,fun _ z hz => ?_,fun _ hnone => ?_⟩
      · obtain rfl := some.inj (hx.symm.trans hz)
        rw [← hyd,← hze,← hdst,hblank.empty,take_nil]
      · rw [hold (hdst ▸ hne x hx)] at hyd
        exact (take_eq_self_iff _).mp hyd
      · obtain rfl := some.inj (hx.symm.trans hz)
        exact hy
      · exact nomatch hx.symm.trans hnone
    · intro hl
      refine ⟨x,by rw [htree]; exact hl.found hb x hx,?_⟩
      rw [← hdst,hdata]
      by_cases hxe : x.node = e.node
      · rw [hl.same x hx hxe,← hxe,← hdst,hblank.empty,take_nil]
      · rw [hold (hdst ▸ hxe)]
        refine (take_eq_self_iff _).mpr (hl.full hb fun z hz => ?_)
        obtain rfl := some.inj (hx.symm.trans hz)
        exact hxe
  | @entered d x name hnone hp hfree hchild hx hnode hfresh _ =>
    have hf := h.missing hnone
    have hne : dst.inode ≠ e.node := by
      rw [hfresh]
      exact ne_of_gt he
    rw [hold hne] at hdata
    have hsub := Tree.without_extends s'.tree D.node N
    constructor
    · rintro ⟨y,hy,hyd⟩
      rw [htree] at hy
      obtain rfl := some.inj (hx.symm.trans (vfsLookupPath_extends hsub hy))
      rw [hnode,hdata] at hyd
      refine ⟨fun z hz => ?_,fun _ _ => (take_eq_self_iff _).mp hyd,fun _ z hz => ?_,fun _ _ d' name' hp' => ?_⟩
      · exact nomatch hz.symm.trans hnone
      · exact nomatch hz.symm.trans hnone
      · exact vfsLookupParent_without hext hf hp' hy
    · intro hl
      have hfull := hl.full hb fun z hz => nomatch hz.symm.trans hnone
      have hpar := vfsLookupParent_extends (hext.without D.node N) (hl.missing hb hnone d name hp)
      refine ⟨x,?_,by rw [hnode,hdata]; exact (take_eq_self_iff _).mpr hfull⟩
      rw [htree,← hx]
      have hname := endsInName_of_missing hf hp hnone
      have hf' : Fits (s'.tree.without D.node N) n :=
        (fits_iff_of_extends hsub).mp ((fits_iff_of_extends hext).mpr hf)
      refine vfsLookupPath_same hsub rfl hf' hpar hname ?_ hblank.link
      have hother : ¬ (d.node = D.node ∧ name = N) := by
        rintro ⟨h1,h2⟩
        rw [h1,h2,h.child] at hfree
        cases hfree
      exact (if_neg hother).trans hchild

/-- The end of a rename that gets to the copy. -/
theorem Ordinary.copied (hr : Renaming s c oldp newp l o n e) (hb : l.buffer)
    (hs'' : s'' = copyFile s' (oldFile e) dst (s.inode e.node).mode hr.notDir (s.inode e.node).size l) :
    ∃ t, (vfsUnlink s'' o l.unlink).toOption.getD s'' = t ∧ vfsLookupPath t.tree o = none ∧
      (HoldsBytes t n (s.inode e.node).data ↔ Lossless s n e l D N) := by
  have helt := Fs.lookup_lt hr.found
  obtain ⟨t,hu,htree,hdata⟩ := h.final ho hr hs''
  refine ⟨t,by rw [hu]; rfl,?_,h.holdsBytes_iff ho helt hb htree hdata⟩
  rw [htree]
  exact vfsLookupPath_removed (vfsOpen_extends ho) h.fits h.parent h.name

/-- After a rename that stops short of the copy the old path still leads to the file;
it has its bytes unless it has been emptied as the new one. -/
theorem Ordinary.unbuffered_iff (he : vfsLookupPath s.tree o = some e) (hb : l.buffer = false) :
    HoldsBytes s' o (s.inode e.node).data ↔ Lossless s n e l D N := by
  obtain ⟨hnew,hblank⟩ := h.newFile ho
  have hold := hnew.data (Fs.lookup_lt he)
  have hext : s.tree.Extends s'.tree := vfsOpen_extends ho
  have he' := vfsLookupPath_extends hext he
  have hnot : ¬ l.buffer := by simp [hb]
  constructor
  · rintro ⟨y,hy,hyd⟩
    obtain rfl := some.inj (he'.symm.trans hy)
    refine ⟨fun x hx hxe => ?_,fun h => absurd h hnot,fun h => absurd h hnot,fun h => absurd h hnot⟩
    cases hnew with
    | found hx' hdst _ _ =>
      obtain rfl := some.inj (hx'.symm.trans hx)
      rw [← hyd,← hxe,← hdst,hblank.empty]
    | entered hnone => exact nomatch hx.symm.trans hnone
  · intro hl
    refine ⟨e,he',?_⟩
    by_cases hde : dst.inode = e.node
    · cases hnew with
      | found hx hdst _ _ => rw [hl.same _ hx (hdst.symm.trans hde),← hde,hblank.empty]
      | entered _ _ _ _ _ _ hfresh _ => exact absurd (Fs.lookup_lt he) (by omega)
    · exact hold hde

end

end Copy

/-- A rename between ordinary paths is all or nothing just when it can lose nothing. -/
theorem rename_all_or_nothing_iff (s : Fs) (c : Caller) (oldp newp : Path) (l : RenameLuck)
    (h : ∀ o n e, Copying s c oldp newp l o n e → ∃ D N i, Ordinary s o n e l D N i) :
    AllOrNothing s c oldp newp (sysRename s c oldp newp l) ↔ ∀ o n e D N, Copying s c oldp newp l o n e →
      vfsLookupParent s.tree o = some (D,N) → Lossless s n e l D N := by
  have hren := sysRename_renamed s c oldp newp l
  generalize sysRename s c oldp newp l = r at hren
  cases hren with
  | refused herr hno =>
    refine iff_of_true ⟨fun _ _ _ _ _ _ _ hret => absurd hret herr,fun o e _ he _ _ => ⟨e,he,rfl⟩⟩ ?_
    exact fun o n e D N hc => absurd hc.toRenaming (hno o n e)
  | @unopened o n e s' hr ho =>
    refine iff_of_true ⟨fun _ _ _ _ _ _ _ hret => absurd hret (show -EACCES ≠ 0 by decide),?_⟩ ?_
    · intro o' e' _ he _ _
      exact ⟨e',vfsLookupPath_extends (vfsOpen_extends ho) he,vfsOpen_none_data ho rfl (Fs.lookup_lt he)⟩
    · intro o' n' e' D N hc
      obtain ⟨rfl,rfl,rfl⟩ := hr.unique hc.toRenaming
      have hopened := hc.opened
      rw [ho] at hopened
      cases hopened
  | @unbuffered o n e s' dst hr ho hb =>
    have hopened : (vfsOpen s n O_NEW l.dst).2.isSome := by rw [ho]; rfl
    constructor
    · intro hall o' n' e' D' N' hc hp
      obtain ⟨rfl,rfl,rfl⟩ := hr.unique hc.toRenaming
      obtain ⟨D,N,i,hord⟩ := h o n e hc
      cases hp.symm.trans hord.parent
      exact (hord.unbuffered_iff ho hr.found hb).mp
        (hall.kept o e hr.joinOld hr.found hc.regular (show -ENOMEM ≠ 0 by decide))
    · intro hl
      refine ⟨fun _ _ _ _ _ _ _ hret => absurd hret (show -ENOMEM ≠ 0 by decide),?_⟩
      intro o' e' hj he hreg _
      cases hj.symm.trans hr.joinOld
      cases he.symm.trans hr.found
      obtain ⟨D,N,i,hord⟩ := h o n e ⟨hr,hreg,hopened⟩
      exact (hord.unbuffered_iff ho he hb).mpr (hl o n e D N ⟨hr,hreg,hopened⟩ hord.parent)
  | @copied o n e s' s'' dst hr ho hb hs'' =>
    have hopened : (vfsOpen s n O_NEW l.dst).2.isSome := by rw [ho]; rfl
    constructor
    · intro hall o' n' e' D' N' hc hp
      obtain ⟨rfl,rfl,rfl⟩ := hr.unique hc.toRenaming
      obtain ⟨D,N,i,hord⟩ := h o n e hc
      obtain ⟨t,ht,hgone,hiff⟩ := hord.copied ho hr hb hs''
      cases hp.symm.trans hord.parent
      have hmoved := hall.moved o n e hr.joinOld hr.joinNew hr.found hc.regular rfl
      dsimp only at hmoved
      rw [ht] at hmoved
      rcases hmoved with ⟨hbytes,_⟩ | ⟨_,hsame⟩
      · exact hiff.mp hbytes
      · rw [hsame,hr.found] at hgone
        cases hgone
    · intro hl
      refine ⟨?_,fun _ _ _ _ _ hret => absurd rfl hret⟩
      intro o' n' e' hj hj' he hreg _
      cases hj.symm.trans hr.joinOld
      cases hj'.symm.trans hr.joinNew
      cases he.symm.trans hr.found
      obtain ⟨D,N,i,hord⟩ := h o n e ⟨hr,hreg,hopened⟩
      obtain ⟨t,ht,hgone,hiff⟩ := hord.copied ho hr hb hs''
      rw [ht]
      exact .inl ⟨hiff.mpr (hl o n e D N ⟨hr,hreg,hopened⟩ hord.parent),hgone⟩

theorem rename_key_to_tmp : AllOrNothing Fs.sample someUser ['/','k','e','y'] ['/','t','m','p','/','k']
    (sysRename Fs.sample someUser ['/','k','e','y'] ['/','t','m','p','/','k'] {}) := by
  have hiff := rename_all_or_nothing_iff Fs.sample someUser ['/','k','e','y'] ['/','t','m','p','/','k'] {}
  refine (hiff ?_).mpr ?_
  · intro o n e hc
    cases hc.joinOld
    cases hc.joinNew
    cases hc.found
    refine ⟨⟨0,[]⟩,['k','e','y'],2,rfl,rfl,rfl,?_,rfl,rfl,rfl,rfl,fun x hx => ?_,fun _ => ?_⟩
    · exact ⟨by decide,by decide,fun _ => rfl⟩
    · cases hx
    · exact ⟨by decide,by decide,fun h => nomatch h⟩
  · intro o n e D N hc hp
    cases hc.joinOld
    cases hc.joinNew
    cases hc.found
    cases hp
    refine ⟨fun x hx => ?_,fun _ _ => by decide,fun _ x hx => ?_,fun _ _ d name hd => ?_⟩
    · cases hx
    · cases hx
    · cases hd
      rfl

/-- Renaming a file to itself deletes it. -/
theorem rename_to_itself_deletes : (sysRename Fs.sample someUser ['/','k','e','y'] ['/','k','e','y'] {}).1 = 0 ∧
    ¬ AllOrNothing Fs.sample someUser ['/','k','e','y'] ['/','k','e','y']
      (sysRename Fs.sample someUser ['/','k','e','y'] ['/','k','e','y'] {}) := by
  refine ⟨rfl,fun h => ?_⟩
  have hgone : vfsLookupPath (sysRename Fs.sample someUser ['/','k','e','y'] ['/','k','e','y'] {}).2.tree
      ['/','k','e','y'] = none := rfl
  rcases h.moved _ _ ⟨2,[0]⟩ rfl rfl rfl (by decide) rfl with ⟨⟨e,he,_⟩,_⟩ | ⟨_,hsame⟩
  · exact nomatch he.symm.trans hgone
  · rw [hsame] at hgone
    cases hgone

end Lariat.Vfs
