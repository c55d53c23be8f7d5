import Lariat.Foundation.TableTree
import Lariat.Mm.Vmm

/-! Address spaces as trees of page tables that hang beside the kernel's own tables. -/
namespace Lariat.Mm

open Foundation.TableTree Reader

/-- A kernel table a translation through the kernel's own top-level table can read. -/
def Reads (tables : Nat → Table) : Nat → Nat → Nat → Prop
  | 0, t, f => f = t
  | n+1, t, f => f = t ∨ ∃ i, ptIsPresent (tables t i) ∧
      (n = 0 → ptIsHuge (tables t i) = false) ∧ Reads tables n (tables t i).frame f

/-- What boot leaves for good: the kernel's tables, with the low identity map under the first
slot of the first PDPT and everything else in the upper half, and the pool of frames that address
spaces are built from. -/
structure Machine where
  pml4 : Nat
  tables : Nat → Table
  total : Nat
  pool : Finset Nat
  pool_lt : ∀ f ∈ pool, f < total
  zero_notMem : 0 ∉ pool
  low : ptIsPresent (tables pml4 0)
  low_frame : (tables pml4 0).frame ≠ 0
  low_only : ∀ j, ptIsPresent (tables (tables pml4 0).frame j) → j = 0
  upper : ∀ i, ptIsPresent (tables pml4 i) → i = 0 ∨ 256 ≤ i.val
  apart : ∀ f, Reads tables 3 pml4 f → f ∉ pool

namespace Machine

variable (k : Machine)

/-- The kernel's entry at a path, where it has a table there. -/
def entry : List (Fin 512) → Entry
  | [i] => k.tables k.pml4 i
  | [j,i] => if ptIsPresent (k.tables k.pml4 i) then k.tables (k.tables k.pml4 i).frame j else {}
  | _ => {}

def shared (path : List (Fin 512)) (e : Entry) : Bool :=
  ptIsPresent (k.entry path) && (k.entry path).frame == e.frame

/-- The frame a private entry leads to. Frames outside the allocator's range are nobody's. -/
def next (path : List (Fin 512)) (e : Entry) : Option Nat :=
  if ptIsPresent e && !ptIsHuge e && !k.shared path e && (path.length != 4 || e.frame < k.total)
  then some e.frame else none

end Machine

/-- The path lies in the user part of an address space. -/
def UserPath : List (Fin 512) → Prop
  | [i] => i.val < 256
  | [j,i] => i.val < 256 ∧ ¬(i = 0 ∧ j = 0)
  | _ => True

/-- What an address space may hold at a path: a private entry that lets everything through in the
user part, the kernel's entry elsewhere. -/
structure CellOk (k : Machine) (path : List (Fin 512)) (e : Entry) : Prop where
  user : UserPath path → ptIsPresent e → ptIsHuge e = false ∧ k.shared path e = false ∧
    (path.length < 4 → e.flags.writable ∧ e.flags.user)
  low : path = [0] → ptIsPresent e
  kernel : ¬UserPath path →
    e = k.entry path ∨ ptIsPresent e = false ∧ ptIsPresent (k.entry path) = false

def presentEntry (e : Entry) : Option Entry := if ptIsPresent e then some e else none

/-- Address spaces as trees. -/
abbrev Machine.reader (k : Machine) : Reader (Fin 512) Entry Entry :=
  ⟨k.next,presentEntry,CellOk k⟩

/-- The kernel's tables are as boot left them. -/
structure KernelIntact (k : Machine) (m : Mem) : Prop where
  pml4 : m.kernelPml4 = k.pml4
  total : m.pmm.totalPages = k.total
  tables : ∀ f, Reads k.tables 3 k.pml4 f → m.table f = k.tables f

def Mem.store (m : Mem) : Store (Fin 512) Entry := ⟨m.table,m.pmm.free.val⟩

/-- The frame an entry accounts for. -/
def Machine.page (k : Machine) (o : Option Entry) : Multiset Nat :=
  o.elim 0 fun e => if e.frame < k.total then {e.frame} else 0

section Cells

variable {k : Machine} {path : List (Fin 512)} {e : Entry}

theorem next_absent (he : ptIsPresent e = false) : k.next path e = none := by
  rw [Machine.next,he]
  rfl

theorem next_kernel (hok : CellOk k path e) (hp : ¬UserPath path) : k.next path e = none := by
  rcases hok.kernel hp with rfl | ⟨he,-⟩
  · cases hpres : ptIsPresent (k.entry path) with
    | false => exact next_absent hpres
    | true => simp [Machine.next,Machine.shared,hpres]
  · exact next_absent he

theorem next_user (hok : CellOk k path e) (hp : UserPath path) (he : ptIsPresent e) :
    k.next path e = if path.length ≠ 4 ∨ e.frame < k.total then some e.frame else none := by
  obtain ⟨hhuge,hshared,-⟩ := hok.user hp he
  simp [Machine.next,he,hhuge,hshared]

theorem branch_leaf {h : Nat → Table} {p : List (Fin 512)} {i : Fin 512}
    (hok : CellOk k (i :: p) e) (hlen : p.length = 3) :
    k.reader.branch h 0 p i e = k.page (presentEntry e) := by
  have hp : UserPath (i :: p) := by
    match p, hlen with
    | [_,_,_], _ => trivial
  rw [Reader.branch,presentEntry]
  show (k.next (i :: p) e).elim 0 (k.reader.owned h 0 (i :: p)) = _
  cases he : ptIsPresent e with
  | false =>
    rw [next_absent he]
    rfl
  | true =>
    rw [next_user hok hp he]
    simp only [List.length_cons,hlen,Machine.page,if_true,Option.elim_some]
    by_cases hf : e.frame < k.total
    · simp [hf,owned_zero]
    · simp [hf]

theorem bare_empty {p : List (Fin 512)} (hp : ∀ j, UserPath (j :: p)) (hne : p ≠ []) :
    k.reader.Bare p emptyTable := by
  have habs (j : Fin 512) : ptIsPresent (emptyTable j) = false := rfl
  have hnext (j : Fin 512) : k.next (j :: p) (emptyTable j) = none := next_absent (habs j)
  refine ⟨hnext,fun _ => rfl,fun j => ⟨?_,?_,?_⟩⟩
  · intro _ he
    rw [habs j] at he
    cases he
  · intro hj
    exact absurd (List.cons.inj hj).2 hne
  · intro hj
    exact absurd (hp j) hj

end Cells

end Lariat.Mm
