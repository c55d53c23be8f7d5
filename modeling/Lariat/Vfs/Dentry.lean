import Mathlib.Logic.Function.Basic
import Lariat.Vfs.Path

/-! Path resolution on dentries: parent pointers set by each walk, mounts crossed when a walk
goes on. Every loop and call takes one from `fuel`; no result means that it ran out. -/
namespace Lariat.Vfs
open Option List Nat
open Function (update update_of_ne update_self)

/-- The operations of the mounted file systems that a walk calls, on dentries. -/
structure Ops (σ : Type*) where
  isDir : σ → Nat → Bool
  isLnk : σ → Nat → Bool
  lookup : σ → Nat → Name → Option Nat × σ
  readlink : σ → Nat → Option (List Char)

/-- The dentries: what they are anchored to and the root dentry of what is mounted on them. -/
structure World (σ : Type*) where
  fs : σ
  parent : Nat → Option Nat
  mount : Nat → Option Nat
  root : Option Nat

/-- What a resolution did: its calls of `lookup`, and the depth of each walk that ran. -/
structure Log where
  lookups : Nat := 0
  depths : List Nat := []

def Log.enter (l : Log) (depth : Nat) : Log := { l with depths := depth :: l.depths }

def Log.lookup (l : Log) : Log := { l with lookups := l.lookups+1 }

/-- `while (current->mount) current = current->mount->root` -/
def crossMounts (mount : Nat → Option Nat) : Nat → Nat → Option Nat
  | 0, _ => none
  | fuel+1, d => (mount d).elim (some d) (crossMounts mount fuel)

/-- The text of a link as it stands in a buffer of 256 bytes. -/
def vfsReadLinkTarget (text : List Char) : Path := (text.take PATH_LEN).takeWhile (· != '\x00')

variable {σ : Type*} (ops : Ops σ)

/-- How one turn of the loop of `vfs_walk` ends. -/
inductive Turn (σ : Type*) where
  /-- The walk returns. -/
  | stop (result : Option Nat) (w : World σ) (log : Log)
  /-- The walk goes on at a dentry. -/
  | on (current : Nat) (rest : Path) (w : World σ) (log : Log)
  /-- A link is to be walked from `base` first. -/
  | link (base : Nat) (target rest : Path) (w : World σ) (log : Log)

/-- The call that follows a link, up to the test at its start. -/
def followLink (w : World σ) (dir : Nat) (text : List Char) (rest : Path) (depth : Nat) (log : Log) :
    Turn σ :=
  let target := vfsReadLinkTarget text
  match if isAbsolute target then w.root else some dir with
  | none => .stop none w log
  | some base =>
    if VFS_SYMLINK_MAX_DEPTH < depth+1 then .stop none w log
    else .link base target rest w (log.enter (depth+1))

/-- What the walk does with a name in `dir`. -/
def lookupTurn (w : World σ) (dir : Nat) (comp : Name) (rest : Path) (depth : Nat) (log : Log) :
    Turn σ :=
  match ops.lookup w.fs dir comp with
  | (none,fs) => .stop none { w with fs := fs } log.lookup
  | (some next,fs) =>
    -- the child is anchored to the directory it was looked up in
    let w := { w with fs := fs, parent := update w.parent next (some dir) }
    if ops.isLnk fs next then
      (ops.readlink fs next).elim (.stop none w log.lookup) fun text =>
        followLink w dir text rest depth log.lookup
    else .on next rest w log.lookup

/-- One turn of the loop of `vfs_walk`, `path` being what is left of the path. -/
def turn (fuel : Nat) (w : World σ) (current : Nat) (path : Path) (depth : Nat) (log : Log) :
    Option (Turn σ) :=
  match pathComponent path with
  | none => (crossMounts w.mount fuel current).map fun d => .stop (some d) w log
  | some (comp,rest) =>
    if comp = ['.'] then some (.on current rest w log)
    else if comp = ['.','.'] then some (.on ((w.parent current).getD current) rest w log)
    else if ops.isDir w.fs current = false then some (.stop none w log)
    else (crossMounts w.mount fuel current).map fun dir => lookupTurn ops w dir comp rest depth log

/-- The loop of `vfs_walk`. -/
def walkLoop : Nat → World σ → Nat → Path → Nat → Log → Option (Option Nat × World σ × Log)
  | 0, _, _, _, _, _ => none
  | fuel+1, w, current, path, depth, log =>
    (turn ops fuel w current path depth log).bind fun t =>
      match t with
      | .stop result w log => some (result,w,log)
      | .on next rest w log => walkLoop fuel w next rest depth log
      | .link base target rest w log =>
        (walkLoop fuel w base target (depth+1) log).bind fun r =>
          match r with
          | (none,w,log) => some (none,w,log)
          | (some d,w,log) => walkLoop fuel w d rest depth log

/-- `vfs_lookup_path` -/
def lookupPath (fuel : Nat) (w : World σ) (path : Path) : Option (Option Nat × World σ × Log) :=
  match w.root with
  | none => some (none,w,{})
  | some root =>
    if isAbsolute path then walkLoop ops fuel w root path 0 (Log.enter {} 0)
    else some (none,w,{})

/-- `vfs_mount` once the file system has made a superblock with root dentry `sbRoot`. -/
def vfsMount (fuel : Nat) (w : World σ) (sbRoot : Nat) (path : Path) : Option (World σ) :=
  if w.root = none ∨ path = ['/'] then some { w with root := some sbRoot }
  else (lookupPath ops fuel w path).map fun r =>
    match r with
    | (none,w,_) => w
    | (some mnt,w,_) => { w with mount := update w.mount mnt (some sbRoot) }

/-! ### Mount tables -/

/-- Chains of mounts lead down a rank. -/
structure Ranked (mount : Nat → Option Nat) (rank : Nat → Nat) (n : Nat) : Prop where
  le : ∀ d, rank d ≤ n
  lt : ∀ d r, mount d = some r → rank r < rank d

/-- The dentries as `vfs_mount` leaves them, after `n` mounts. What else happens between the
mounts changes the file systems and the anchors, and frees dentries. -/
inductive Built : Nat → World σ → Prop
  | boot {w : World σ} : w.root = none → (∀ d, w.mount d = none) → Built 0 w
  | other {n : Nat} {w w' : World σ} : Built n w → w'.root = w.root →
      (∀ d, w'.mount d = none ∨ w'.mount d = w.mount d) → Built n w'
  | mount {n fuel sbRoot : Nat} {w w' : World σ} {path : Path} : Built n w →
      -- the new root is a dentry that was not in use
      w.mount sbRoot = none → (∀ d, w.mount d ≠ some sbRoot) → w.root ≠ some sbRoot →
      (∀ mnt w1 log, lookupPath ops fuel w path = some (some mnt,w1,log) → mnt ≠ sbRoot) →
      vfsMount ops fuel w sbRoot path = some w' → Built (n+1) w'

section Ranked

variable {mount mount' : Nat → Option Nat} {rank : Nat → Nat} {n fuel d e r mnt : Nat}

theorem crossMounts_end (h : crossMounts mount fuel d = some e) : mount e = none := by
  induction fuel generalizing d with
  | zero => cases h
  | succ fuel ih =>
    rw [crossMounts] at h
    cases hm : mount d with
    | none =>
      rw [hm] at h
      cases h
      exact hm
    | some r =>
      rw [hm] at h
      exact ih h

theorem Ranked.crossMounts (h : Ranked mount rank n) (hd : rank d < fuel) :
    ∃ e, Vfs.crossMounts mount fuel d = some e := by
  induction fuel generalizing d with
  | zero => exact absurd hd (not_lt_zero _)
  | succ fuel ih =>
    rw [Vfs.crossMounts]
    cases hm : mount d with
    | none => exact ⟨d,rfl⟩
    | some r =>
      have hlt := h.lt d r hm
      exact ih (by omega)

theorem crossMounts_succ (h : crossMounts mount fuel d = some e) :
    crossMounts mount (fuel+1) d = some e := by
  induction fuel generalizing d with
  | zero => cases h
  | succ fuel ih =>
    rw [crossMounts] at h ⊢
    generalize mount d = r at h ⊢
    cases r with
    | none => exact h
    | some r => exact ih h

theorem Ranked.crosses (h : Ranked mount rank n) (hn : n < fuel) (d : Nat) :
    ∃ e, Vfs.crossMounts mount fuel d = some e :=
  h.crossMounts (lt_of_le_of_lt (h.le d) hn)

theorem Ranked.clear (h : Ranked mount rank n) (hm : ∀ d, mount' d = none ∨ mount' d = mount d) :
    Ranked mount' rank n := by
  refine ⟨h.le,fun d r hd => h.lt d r ?_⟩
  rcases hm d with hnone | hsame
  · rw [hnone] at hd
    cases hd
  · rw [← hsame]
    exact hd

/-- A fresh root put on a dentry that has no mount makes every chain at most one longer. -/
theorem Ranked.add (h : Ranked mount rank n) (hr : mount r = none) (hfresh : ∀ d, mount d ≠ some r)
    (hne : mnt ≠ r) : Ranked (update mount mnt (some r))
      (update (fun d => rank d+1) r 0) (n+1) := by
  constructor
  · intro d
    by_cases hd : d = r
    · rw [hd,update_self]
      exact zero_le _
    · rw [update_of_ne hd]
      exact succ_le_succ (h.le d)
  · intro d e he
    by_cases hd : d = mnt
    · rw [hd,update_self] at he
      cases he
      rw [hd,update_self,update_of_ne hne]
      exact succ_pos _
    rw [update_of_ne hd] at he
    have her : e ≠ r := fun h0 => hfresh d (h0 ▸ he)
    have hdr : d ≠ r := by
      rintro rfl
      rw [hr] at he
      cases he
    rw [update_of_ne her,update_of_ne hdr]
    exact succ_lt_succ (h.lt d e he)

end Ranked

/-! ### One turn -/

section Turned

variable {ops} {w : World σ} {current depth fuel : Nat} {path : Path} {log : Log} {t : Turn σ}

/-- The next component is a name, which is looked up in `dir`. -/
structure Names (ops : Ops σ) (w : World σ) (current : Nat) (path : Path) (cross : Nat → Prop)
    (comp : Name) (rest : Path) (dir : Nat) : Prop where
  component : pathComponent path = some (comp,rest)
  dot : comp ≠ ['.']
  dotdot : comp ≠ ['.','.']
  isDir : ops.isDir w.fs current
  cross : cross dir

section

variable (ops : Ops σ) (w : World σ) (current : Nat) (path : Path) (depth : Nat) (log : Log)
  (cross : Nat → Prop)

/-- What a turn can do; `cross` says which dentry the mounts at the current one lead to. -/
inductive Turned : Turn σ → Prop
  | done {d : Nat} : pathComponent path = none → cross d → Turned (.stop (some d) w log)
  | dot {rest : Path} : pathComponent path = some (['.'],rest) → Turned (.on current rest w log)
  | dotdot {rest : Path} : pathComponent path = some (['.','.'],rest) →
      Turned (.on ((w.parent current).getD current) rest w log)
  | notDir {comp : Name} {rest : Path} : pathComponent path = some (comp,rest) → comp ≠ ['.'] →
      comp ≠ ['.','.'] → ops.isDir w.fs current = false → Turned (.stop none w log)
  | missing {comp : Name} {rest : Path} {dir : Nat} {fs : σ} :
      Names ops w current path cross comp rest dir → ops.lookup w.fs dir comp = (none,fs) →
      Turned (.stop none { w with fs := fs } log.lookup)
  | unread {comp : Name} {rest : Path} {dir next : Nat} {fs : σ} :
      Names ops w current path cross comp rest dir → ops.lookup w.fs dir comp = (some next,fs) →
      ops.isLnk fs next → ops.readlink fs next = none → Turned
        (.stop none { w with fs := fs, parent := update w.parent next (some dir) } log.lookup)
  | unfollowed {comp : Name} {rest : Path} {dir next : Nat} {fs : σ} {text : List Char} :
      Names ops w current path cross comp rest dir → ops.lookup w.fs dir comp = (some next,fs) →
      ops.isLnk fs next → ops.readlink fs next = some text →
      w.root = none ∨ VFS_SYMLINK_MAX_DEPTH < depth+1 → Turned
        (.stop none { w with fs := fs, parent := update w.parent next (some dir) } log.lookup)
  | child {comp : Name} {rest : Path} {dir next : Nat} {fs : σ} :
      Names ops w current path cross comp rest dir → ops.lookup w.fs dir comp = (some next,fs) →
      ops.isLnk fs next = false → Turned
        (.on next rest { w with fs := fs, parent := update w.parent next (some dir) } log.lookup)
  | link {comp : Name} {rest : Path} {dir next base : Nat} {fs : σ} {text : List Char} :
      Names ops w current path cross comp rest dir → ops.lookup w.fs dir comp = (some next,fs) →
      ops.isLnk fs next → ops.readlink fs next = some text →
      (if isAbsolute (vfsReadLinkTarget text) then w.root else some dir) = some base →
      depth+1 ≤ VFS_SYMLINK_MAX_DEPTH → Turned
        (.link base (vfsReadLinkTarget text) rest
          { w with fs := fs, parent := update w.parent next (some dir) }
          (log.lookup.enter (depth+1)))

end

theorem turn_turned (h : turn ops fuel w current path depth log = some t) :
    Turned ops w current path depth log (fun d => crossMounts w.mount fuel current = some d) t := by
  rw [turn] at h
  cases hc : pathComponent path with
  | none =>
    rw [hc] at h
    obtain ⟨d,hd,rfl⟩ := map_eq_some_iff.mp h
    exact .done hc hd
  | some c =>
    obtain ⟨comp,rest⟩ := c
    simp only [hc] at h
    split at h
    · rename_i hdot
      cases h
      exact .dot (hdot ▸ hc)
    rename_i hdot
    split at h
    · rename_i hup
      cases h
      exact .dotdot (hup ▸ hc)
    rename_i hup
    split at h
    · rename_i hdir
      cases h
      exact .notDir hc hdot hup hdir
    rename_i hdir
    obtain ⟨dir,hcross,rfl⟩ := map_eq_some_iff.mp h
    have hnames : Names ops w current path (fun d => crossMounts w.mount fuel current = some d)
        comp rest dir := ⟨hc,hdot,hup,Bool.not_eq_false _ ▸ hdir,hcross⟩
    rw [lookupTurn]
    rcases hlook : ops.lookup w.fs dir comp with ⟨next,fs⟩
    cases next with
    | none => exact .missing hnames hlook
    | some next =>
      dsimp only
      split
      · rename_i hlnk
        cases hread : ops.readlink fs next with
        | none => exact .unread hnames hlook hlnk hread
        | some text =>
          show Turned _ _ _ _ _ _ _ (followLink _ dir text rest depth log.lookup)
          rw [followLink]
          split
          · rename_i hbase
            refine .unfollowed hnames hlook hlnk hread (.inl ?_)
            split at hbase
            · exact hbase
            · cases hbase
          split
          · rename_i hdepth
            exact .unfollowed hnames hlook hlnk hread (.inr hdepth)
          · rename_i hbase hdepth
            exact .link hnames hlook hlnk hread hbase (not_lt.mp hdepth)
      · rename_i hlnk
        exact .child hnames hlook (Bool.not_eq_true _ ▸ hlnk)

/-- A turn needs fuel only to cross mounts. -/
theorem turn_of_cross (ops : Ops σ) (path : Path) (depth : Nat) (log : Log) {d : Nat}
    (hd : crossMounts w.mount fuel current = some d) :
    ∃ t, turn ops fuel w current path depth log = some t := by
  rw [turn,hd]
  cases pathComponent path with
  | none => exact ⟨_,rfl⟩
  | some c =>
    dsimp only
    split
    · exact ⟨_,rfl⟩
    split
    · exact ⟨_,rfl⟩
    split
    · exact ⟨_,rfl⟩
    · exact ⟨_,rfl⟩

theorem turn_succ (h : turn ops fuel w current path depth log = some t) :
    turn ops (fuel+1) w current path depth log = some t := by
  cases hd : crossMounts w.mount fuel current with
  | some d => rwa [turn,crossMounts_succ hd,← hd]
  | none =>
    -- the turn crossed nothing
    rw [turn,hd] at h
    rw [turn]
    cases hc : pathComponent path with
    | none =>
      rw [hc] at h
      cases h
    | some c =>
      simp only [hc,map_none] at h ⊢
      split_ifs at h ⊢ <;> exact h

end Turned

/-! ### What a walk costs -/

/-- How many lookups one component costs with `k` more links allowed and link texts of length `L`:
its own, and one walk over a link. -/
def componentCost (L : Nat) : Nat → Nat
  | 0 => 1
  | k+1 => 1+L*componentCost L k

/-- A walk that ended, with at most `n` lookups more than before. -/
structure Walked (w : World σ) (log : Log) (n : Nat) (r : Option Nat × World σ × Log) : Prop where
  mount : r.2.1.mount = w.mount
  root : r.2.1.root = w.root
  crossed : ∀ d, r.1 = some d → w.mount d = none
  lookups : r.2.2.lookups ≤ log.lookups+n
  depths : ∀ d ∈ r.2.2.depths, d ∈ log.depths ∨ d ≤ VFS_SYMLINK_MAX_DEPTH

section Walk

variable {ops} {w w1 : World σ} {log log1 : Log} {k n n1 L depth : Nat} {path rest : Path}
  {comp : Name} {r : Option Nat × World σ × Log} {rank : Nat → Nat}

theorem componentCost_pos (L k : Nat) : 0 < componentCost L k := by
  cases k with
  | zero => exact Nat.one_pos
  | succ k => exact Nat.succ_le_of_lt (Nat.lt_add_right _ Nat.one_pos)

/-- No link has more text than `L`, as far as it fits the buffer. -/
def LinksWithin (ops : Ops σ) (L : Nat) : Prop :=
  ∀ fs d text, ops.readlink fs d = some text → (vfsReadLinkTarget text).length ≤ L

theorem linksWithin_buffer (ops : Ops σ) : LinksWithin ops PATH_LEN := by
  intro fs d text _
  calc (vfsReadLinkTarget text).length
      ≤ (text.take PATH_LEN).length := (List.takeWhile_prefix _).length_le
    _ ≤ PATH_LEN := length_take_le ..

/-- A walk that goes on from a later state. -/
theorem Walked.after (h : Walked w1 log1 n1 r) (hm : w1.mount = w.mount) (hr : w1.root = w.root)
    (hl : log1.lookups+n1 ≤ log.lookups+n)
    (hd : ∀ d ∈ log1.depths, d ∈ log.depths ∨ d ≤ VFS_SYMLINK_MAX_DEPTH) : Walked w log n r where
  mount := h.mount.trans hm
  root := h.root.trans hr
  crossed := fun d hd => by
    rw [← hm]
    exact h.crossed d hd
  lookups := le_trans h.lookups hl
  depths := fun d hmem => (h.depths d hmem).elim (hd d) .inr

theorem Walked.gone (hm : w1.mount = w.mount) (hr : w1.root = w.root)
    (hl : log1.lookups ≤ log.lookups+n) (hd : log1.depths = log.depths) :
    Walked w log n (none,w1,log1) := by
  refine ⟨hm,hr,fun d h => absurd h (by rintro ⟨⟩),hl,fun d h => .inl ?_⟩
  rwa [← hd]

theorem cost_rest (hlt : rest.length < path.length) :
    componentCost L k+rest.length*componentCost L k ≤ path.length*componentCost L k := by
  have hmul := mul_le_mul_right (componentCost L k) (succ_le_of_lt hlt)
  rw [succ_mul] at hmul
  omega

/-- With fuel for the path, for a link text at each of the depths left and for a chain of mounts,
a walk returns. -/
theorem walkLoop_returns (hrank : Ranked w.mount rank n)
    (hL : LinksWithin ops L) (fuel current : Nat)
    (hk : depth+k = VFS_SYMLINK_MAX_DEPTH)
    (hfuel : path.length+k*(L+1)+n+1 < fuel) :
    ∃ r, walkLoop ops fuel w current path depth log = some r ∧
      Walked w log (path.length*componentCost L k) r := by
  induction fuel generalizing w current path depth log k with
  | zero => exact absurd hfuel (not_lt_zero _)
  | succ fuel ih =>
    obtain ⟨dir,hdir⟩ := hrank.crosses (show n < fuel by omega) current
    obtain ⟨t,ht⟩ := turn_of_cross ops path depth log hdir
    rw [walkLoop,ht,bind_some]
    have hpos := componentCost_pos L k
    have hone : ∀ c, pathComponent path = some c →
        log.lookups+1 ≤ log.lookups+path.length*componentCost L k := fun c hc =>
      Nat.add_le_add_left (Nat.mul_pos (Nat.zero_lt_of_lt (pathComponent_lt hc)) hpos) _
    -- the rest of the path at this depth, from any later state
    have hgo : ∀ (comp : Name) (rest : Path) (w1 : World σ) (log1 : Log) (d : Nat),
        pathComponent path = some (comp,rest) → w1.mount = w.mount → w1.root = w.root →
        log1.lookups ≤ log.lookups+componentCost L k →
        (∀ d ∈ log1.depths, d ∈ log.depths ∨ d ≤ VFS_SYMLINK_MAX_DEPTH) →
        ∃ r, walkLoop ops fuel w1 d rest depth log1 = some r ∧
          Walked w log (path.length*componentCost L k) r := by
      intro comp rest w1 log1 d hc hm hr hl hd
      have hlt : rest.length < path.length := pathComponent_lt hc
      have hcost := cost_rest (L := L) (k := k) hlt
      have hrest : ∃ r, walkLoop ops fuel w1 d rest depth log1 = some r ∧
          Walked w1 log1 (rest.length*componentCost L k) r :=
        ih (hm ▸ hrank) d hk (by omega)
      obtain ⟨r,h1,h2⟩ := hrest
      exact ⟨r,h1,h2.after hm hr (by omega) hd⟩
    cases turn_turned ht with
    | done hc hd =>
      refine ⟨_,rfl,rfl,rfl,?_,Nat.le_add_right ..,fun d hd => .inl hd⟩
      rintro d ⟨⟩
      exact crossMounts_end hd
    | dot hc | dotdot hc => exact hgo _ _ _ _ _ hc rfl rfl (by omega) fun d hd => .inl hd
    | notDir _ _ _ _ => exact ⟨_,rfl,.gone rfl rfl (Nat.le_add_right ..) rfl⟩
    | missing hn _ | unread hn _ _ _
    | unfollowed hn _ _ _ _ => exact ⟨_,rfl,.gone rfl rfl (hone _ hn.component) rfl⟩
    | child hn _ _ =>
      exact hgo _ _ _ _ _ hn.component rfl rfl (Nat.add_le_add_left hpos _) fun d hd => .inl hd
    | @link comp rest dir next base fs text hn hlook hlnk hread hbase hdepth =>
      obtain ⟨j,rfl⟩ : ∃ j, k = j+1 := ⟨k-1,by omega⟩
      have hlen := hL fs next text hread
      have hmul := mul_le_mul_right (componentCost L j) hlen
      have hunfold : componentCost L (j+1) =
          1+L*componentCost L j := rfl
      rw [succ_mul] at hfuel
      have hlink : ∀ w1 : World σ, w1.mount = w.mount →
          ∃ r, walkLoop ops fuel w1 base (vfsReadLinkTarget text) (depth+1)
            (log.lookup.enter (depth+1)) = some r ∧ Walked w1 (log.lookup.enter (depth+1))
              ((vfsReadLinkTarget text).length*componentCost L j) r :=
        fun w1 hm => ih (hm ▸ hrank) base (by omega) (by omega)
      obtain ⟨⟨last,w1,log1⟩,h1,h2⟩ := hlink
        { w with fs := fs, parent := update w.parent next (some dir) } rfl
      dsimp only
      rw [h1,bind_some]
      have hin : ∀ d ∈ log1.depths, d ∈ log.depths ∨ d ≤ VFS_SYMLINK_MAX_DEPTH := by
        intro d hd
        rcases h2.depths d hd with hd | hd
        · rcases mem_cons.mp hd with rfl | hd
          · exact .inr hdepth
          · exact .inl hd
        · exact .inr hd
      have hcount : log1.lookups ≤ log.lookups+1+
          (vfsReadLinkTarget text).length*componentCost L j := h2.lookups
      cases last with
      | none =>
        have hcost := cost_rest (L := L) (k := j+1) (pathComponent_lt hn.component)
        exact ⟨_,rfl,h2.mount,h2.root,by rintro d ⟨⟩,show log1.lookups ≤ _ by omega,hin⟩
      | some d => exact hgo _ _ w1 log1 d hn.component h2.mount h2.root (by omega) hin

/-- A result does not depend on the fuel. -/
theorem walkLoop_succ {fuel current : Nat} (h : walkLoop ops fuel w current path depth log = some r) :
    walkLoop ops (fuel+1) w current path depth log = some r := by
  induction fuel generalizing w current path depth log r with
  | zero => cases h
  | succ fuel ih =>
    rw [walkLoop] at h ⊢
    obtain ⟨t,ht,h⟩ := bind_eq_some_iff.mp h
    rw [turn_succ ht,bind_some]
    cases t with
    | stop result w log => exact h
    | on next rest w log => exact ih h
    | link base target rest w log =>
      obtain ⟨⟨last,w1,log1⟩,h1,h2⟩ := bind_eq_some_iff.mp h
      dsimp only
      rw [ih h1,bind_some]
      cases last with
      | none => exact h2
      | some d => exact ih h2

theorem lookupPath_mono {fuel fuel' : Nat} (hle : fuel ≤ fuel') (h : lookupPath ops fuel w path = some r) :
    lookupPath ops fuel' w path = some r := by
  induction hle with
  | refl => exact h
  | step _ ih =>
    rw [lookupPath] at ih ⊢
    cases hroot : w.root with
    | none => rwa [hroot] at ih
    | some root =>
      simp only [hroot] at ih ⊢
      split at ih
      · rename_i habs
        rw [if_pos habs]
        exact walkLoop_succ ih
      · rename_i habs
        rwa [if_neg habs]

/-- The fuel a resolution needs. -/
def fuelFor (path : Path) (L n : Nat) : Nat :=
  path.length+VFS_SYMLINK_MAX_DEPTH*(L+1)+n+2

theorem lookupPath_returns (path : Path) (hrank : Ranked w.mount rank n) (hL : LinksWithin ops L) :
    ∃ r, lookupPath ops (fuelFor path L n) w path = some r ∧
      Walked w {} (path.length*componentCost L VFS_SYMLINK_MAX_DEPTH) r := by
  rw [lookupPath]
  cases hroot : w.root with
  | none => exact ⟨_,rfl,.gone rfl rfl (zero_le _) rfl⟩
  | some root =>
    dsimp only
    split
    · have hwalk : ∃ r, walkLoop ops (fuelFor path L n) w root path 0 (Log.enter {} 0) = some r ∧
          Walked w (Log.enter {} 0) (path.length*componentCost L VFS_SYMLINK_MAX_DEPTH) r :=
        walkLoop_returns hrank hL _ root (Nat.zero_add _) (Nat.lt_succ_self _)
      obtain ⟨r,h1,h2⟩ := hwalk
      refine ⟨r,h1,h2.after rfl rfl (le_refl _) fun d hd => .inr ?_⟩
      rw [mem_singleton.mp hd]
      exact zero_le _
    · exact ⟨_,rfl,.gone rfl rfl (zero_le _) rfl⟩

theorem lookupPath_walked {fuel : Nat} (hrank : Ranked w.mount rank n)
    (h : lookupPath ops fuel w path = some r) : ∃ m, Walked w {} m r := by
  obtain ⟨r',h1,h2⟩ := lookupPath_returns path hrank (linksWithin_buffer ops)
  have hsame := (lookupPath_mono (le_max_left _ _) h).symm.trans
    (lookupPath_mono (le_max_right fuel _) h1)
  cases hsame
  exact ⟨_,h2⟩

theorem Built.ranked {n : Nat} (h : Built ops n w) : ∃ rank, Ranked w.mount rank n := by
  induction h with
  | boot _ hm =>
    refine ⟨fun _ => 0,fun _ => le_refl 0,fun d r hd => ?_⟩
    rw [hm d] at hd
    cases hd
  | other _ _ hm ih =>
    obtain ⟨rank,hr⟩ := ih
    exact ⟨rank,hr.clear hm⟩
  | mount _ hnone hfresh _ hne hmount ih =>
    obtain ⟨rank,hr⟩ := ih
    rw [vfsMount] at hmount
    split at hmount
    · cases hmount
      exact ⟨rank,fun d => le_succ_of_le (hr.le d),hr.lt⟩
    obtain ⟨⟨mnt,w1,log⟩,hlook,he⟩ := map_eq_some_iff.mp hmount
    obtain ⟨m,hw⟩ := lookupPath_walked hr hlook
    have hm : w1.mount = _ := hw.mount
    cases mnt with
    | none =>
      cases he
      rw [hm]
      exact ⟨rank,fun d => le_succ_of_le (hr.le d),hr.lt⟩
    | some mnt =>
      cases he
      dsimp only
      rw [hm]
      exact ⟨_,hr.add hnone hfresh (hne mnt w1 log hlook)⟩

theorem Built.resolves {n : Nat} (h : Built ops n w) (hL : LinksWithin ops L) (path : Path) :
    ∃ r, (∀ fuel, fuelFor path L n ≤ fuel → lookupPath ops fuel w path = some r) ∧
      Walked w {} (path.length*componentCost L VFS_SYMLINK_MAX_DEPTH) r := by
  obtain ⟨rank,hr⟩ := h.ranked
  obtain ⟨r,h1,h2⟩ := lookupPath_returns path hr hL
  exact ⟨r,fun fuel hfuel => lookupPath_mono hfuel h1,h2⟩

/-- Path resolution returns, for every symlink graph: the walks that run nest no deeper than the
limit, and each component of the path costs at most `componentCost` lookups. -/
theorem resolution_terminates {n L : Nat} {w : World σ} (hw : Built ops n w) (hL : LinksWithin ops L)
    (path : Path) : ∃ r, (∀ fuel, fuelFor path L n ≤ fuel → lookupPath ops fuel w path = some r) ∧
      (∀ d ∈ r.2.2.depths, d ≤ VFS_SYMLINK_MAX_DEPTH) ∧
      r.2.2.lookups ≤ path.length*componentCost L VFS_SYMLINK_MAX_DEPTH := by
  obtain ⟨r,h1,h2⟩ := hw.resolves hL path
  refine ⟨r,h1,fun d hd => ?_,?_⟩
  · exact (h2.depths d hd).resolve_left not_mem_nil
  · exact Nat.le_trans h2.lookups (Nat.le_of_eq (Nat.zero_add _))

/-- One directory with a link `a` that leads to itself. -/
def selfLink : Ops Unit where
  isDir := fun _ d => d == 0
  isLnk := fun _ d => d == 1
  lookup := fun _ d n => (if d = 0 ∧ n = ['a'] then some 1 else none,())
  readlink := fun _ d => if d = 1 then some ['/','a'] else none

def selfLinkWorld : World Unit := ⟨(),fun _ => none,fun _ => none,some 0⟩

theorem selfLink_built : Built selfLink 1 selfLinkWorld := by
  have hboot : Built selfLink 0 ⟨(),fun _ => none,fun _ => none,none⟩ := .boot rfl fun _ => rfl
  have hmount : vfsMount selfLink 0 ⟨(),fun _ => none,fun _ => none,none⟩ 0 ['/'] =
      some selfLinkWorld := rfl
  refine .mount hboot rfl ?_ ?_ ?_ hmount
  · rintro d ⟨⟩
  · rintro ⟨⟩
  · rintro mnt w1 log ⟨⟩

theorem resolution_terminates_selfLink :
    Built selfLink 1 selfLinkWorld ∧ LinksWithin selfLink 2 ∧
    ∃ r, (∀ fuel, fuelFor ['/','a'] 2 1 ≤ fuel →
        lookupPath selfLink fuel selfLinkWorld ['/','a'] = some r) ∧
      (∀ d ∈ r.2.2.depths, d ≤ VFS_SYMLINK_MAX_DEPTH) ∧
      r.2.2.lookups ≤ 2*componentCost 2 VFS_SYMLINK_MAX_DEPTH := by
  have hlinks : LinksWithin selfLink 2 := by
    intro fs d text h
    simp only [selfLink] at h
    split at h
    · cases h
      decide
    · cases h
  exact ⟨selfLink_built,hlinks,resolution_terminates selfLink_built hlinks ['/','a']⟩

end Walk

end Lariat.Vfs
