import Lariat.Foundation.Runs
import Lariat.User.Lpkg
import Mathlib.Logic.Function.Basic

/-! The package manager's database through `lpkg install` and `lpkg remove`. -/
namespace Lariat.User.Lpkg
open Foundation.Runs Function List Bool

abbrev Path := List UInt8

/-- `DB_DIR`. -/
def dbDir : Path := ascii "/var/lib/lpkg/db".toList

def dbFile (name leaf : Path) : Path := dbDir ++ 47 :: name ++ 47 :: leaf

/-- A name that stands for one entry of a directory. -/
def Component (c : Path) : Prop := c ≠ [] ∧ 47 ∉ c ∧ c ≠ [46] ∧ c ≠ [46,46]

/-- A path from component to component, and not into the database. -/
def Outside (f : Path) : Prop := (∃ cs : List Path, f = cs.flatMap (47 :: ·) ∧ ∀ c ∈ cs, Component c) ∧ ¬dbDir <+: f

/-- The files there are, apart from the database: the packages with a `meta` file, what their `files`
lists, and a record of which files that are still there an install of a package wrote. -/
structure Store where
  present : Path → Bool := fun _ => false
  installed : Path → Bool := fun _ => false
  listed : Path → List Path := fun _ => []
  wrote : Path → Path → Bool := fun _ _ => false

/-- For each file whether it can be opened, and then whether it can be written; whether `meta` can
be; and which lines of `files`, if it can be opened. -/
structure Luck where
  calls : List (Option Bool)
  info : Bool := true
  lines : Option (List Bool)

def checkDeps (s : Store) (p : Pkg) : Bool :=
  (p.deps.splitOn 44).all fun d => let d := d.dropWhile (· = 32); d = [] || s.installed d

/-- `extract_files`: the files opened, and whether all were written. -/
def extracted : List File → List (Option Bool) → List Path × Bool
  | [],_ => ([],true)
  | f :: fs,some true :: calls => (f.path :: (extracted fs calls).1,(extracted fs calls).2)
  | f :: _,some false :: _ => ([f.path],false)
  | _,_ => ([],false)

def Pkg.accepted (p : Pkg) (s : Store) (force : Bool) : Bool :=
  (p.arch == ascii ['x','8','6','_','6','4'] && checkDeps s p) || force

def cmdInstall (s : Store) (p : Pkg) (force : Bool) (luck : Luck) : Store :=
  if p.accepted s force then
    let new := (extracted p.files luck.calls).1
    let s := { s with
      present := fun f => s.present f || new.contains f
      wrote := update s.wrote p.name fun f => s.wrote p.name f || new.contains f }
    if (extracted p.files luck.calls).2 then { s with
      installed := if luck.info then update s.installed p.name true else s.installed
      listed := luck.lines.elim s.listed fun oks =>
        update s.listed p.name (((p.files.map File.path).zip oks).filterMap fun l => if l.2 then some l.1 else none) }
    else s
  else s

/-- `stuck` are the files that cannot be unlinked. -/
def cmdRemove (s : Store) (name : Path) (stuck : Path → Bool) : Store :=
  if s.installed name then
    let gone (f : Path) := (s.listed name).contains f && !stuck f
    { present := fun f => s.present f && !gone f
      installed := update s.installed name (stuck (dbFile name (ascii ['m','e','t','a'])))
      listed := if stuck (dbFile name (ascii ['f','i','l','e','s'])) then s.listed else update s.listed name []
      wrote := fun n f => s.wrote n f && !gone f }
  else s

inductive Command where
  | install (p : Pkg) (force : Bool) (luck : Luck)
  | remove (name : Path) (stuck : Path → Bool)

def step (s : Store) : Command → Option Store
  | .install p force luck => some (cmdInstall s p force luck)
  | .remove name stuck => some (cmdRemove s name stuck)

/-- A file an install wrote is listed by the package, unless another lists it, and removing the
package leaves none. -/
structure Consistent (s : Store) : Prop where
  listed : ∀ n f, s.wrote n f → s.present f → (∀ m ≠ n, s.installed m → f ∉ s.listed m) → f ∈ s.listed n
  removed : ∀ n, (cmdRemove s n fun _ => false).installed n = false ∧
    ∀ f, s.wrote n f → (cmdRemove s n fun _ => false).present f = false

/-- Names are those of directories of their own, and no file of a package is in the database. An
install that fails has opened only files its package lists; one that succeeds is recorded in full,
with the files recorded before among its own; and what is removed can be unlinked. -/
def Careful (s : Store) : Command → Prop
  | .install p force luck => p.accepted s force → Component p.name ∧ (∀ f ∈ p.files, Outside f.path) ∧
    if (extracted p.files luck.calls).2 then
      luck.info ∧ luck.lines = some (p.files.map fun _ => true) ∧ ∀ f ∈ s.listed p.name, f ∈ p.files.map File.path
    else ∀ f ∈ (extracted p.files luck.calls).1, s.installed p.name ∧ f ∈ s.listed p.name
  | .remove name stuck => Component name ∧ name.length < 64 ∧ stuck (dbFile name (ascii ['m','e','t','a'])) = false ∧
    ∀ f ∈ s.listed name, stuck f = false

/-- The record of what was written is in the database. -/
def Recorded (s : Store) : Prop := ∀ n f, s.wrote n f → s.installed n ∧ f ∈ s.listed n

theorem Recorded.consistent {s : Store} (h : Recorded s) : Consistent s where
  listed n f hw _ _ := (h n f hw).2
  removed n := by
    rw [cmdRemove]
    split
    · refine ⟨update_self ..,fun f hw => ?_⟩
      simp [(h n f hw).2]
    · rename_i hn
      exact ⟨eq_false_iff.mpr hn,fun f hw => absurd (h n f hw).1 hn⟩

theorem mem_extracted {fs : List File} {calls : List (Option Bool)} {f : Path} (h : f ∈ (extracted fs calls).1) :
    f ∈ fs.map File.path := by
  induction fs generalizing calls with
  | nil => cases h
  | cons g fs ih =>
    unfold extracted at h
    split at h
    · cases h
    · rename_i heq
      cases heq
      exact (mem_cons.mp h).elim (fun h => h ▸ .head _) fun h => .tail _ (ih h)
    · rename_i heq
      cases heq
      exact mem_singleton.mp h ▸ .head _
    · cases h

theorem lines_full (fs : List File) :
    ((fs.map File.path).zip (fs.map fun _ => true)).filterMap (fun l => if l.2 then some l.1 else none) =
      fs.map File.path := by
  induction fs with
  | nil => rfl
  | cons f fs ih => exact congrArg (f.path :: ·) ih

theorem Recorded.cmdInstall {s : Store} (h : Recorded s) {p : Pkg} {force : Bool} {luck : Luck}
    (hc : Careful s (.install p force luck)) : Recorded (cmdInstall s p force luck) := by
  rw [Lpkg.cmdInstall]
  split
  · rename_i hacc
    have hc := (hc hacc).2.2
    dsimp only
    split
    · rename_i hok
      rw [if_pos hok] at hc
      obtain ⟨hinfo,hlines,hold⟩ := hc
      intro n f hw
      rw [hinfo,if_pos rfl,hlines]
      show update s.installed p.name true n ∧ f ∈ update s.listed p.name _ n
      by_cases hn : n = p.name
      · subst hn
        rw [update_self,update_self,lines_full]
        change update s.wrote p.name _ p.name f at hw
        rw [update_self,or_eq_true] at hw
        exact ⟨rfl,hw.elim (fun hw => hold f (h _ f hw).2) fun hw => mem_extracted (contains_iff_mem.mp hw)⟩
      · change update s.wrote p.name _ n f at hw
        rw [update_of_ne hn] at hw ⊢
        rw [update_of_ne hn]
        exact h n f hw
    · rename_i hok
      rw [if_neg hok] at hc
      intro n f hw
      change update s.wrote p.name _ n f at hw
      by_cases hn : n = p.name
      · subst hn
        rw [update_self,or_eq_true] at hw
        exact hw.elim (h _ f) fun hw => hc f (contains_iff_mem.mp hw)
      · rw [update_of_ne hn] at hw
        exact h n f hw
  · exact h

theorem Recorded.cmdRemove {s : Store} (h : Recorded s) {name : Path} {stuck : Path → Bool}
    (hc : ∀ f ∈ s.listed name, stuck f = false) : Recorded (cmdRemove s name stuck) := by
  rw [Lpkg.cmdRemove]
  split
  · intro n f hw
    obtain ⟨hw,hgone⟩ := and_eq_true_iff.mp hw
    obtain ⟨hin,hlist⟩ := h n f hw
    by_cases hn : n = name
    · subst hn
      simp [hlist,hc f hlist] at hgone
    · show update s.installed name _ n ∧ f ∈ (if _ then s.listed else update s.listed name []) n
      rw [update_of_ne hn]
      refine ⟨hin,?_⟩
      split
      · exact hlist
      · rwa [update_of_ne hn]
  · exact h

/-- The package `a` with one file. -/
def single (path : Path) : Pkg := { name := [97], arch := ascii ['x','8','6','_','6','4'], files := [⟨0,0,path,0⟩] }

end Lariat.User.Lpkg
