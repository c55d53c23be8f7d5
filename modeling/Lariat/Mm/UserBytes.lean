import Lariat.Foundation.ByteStore
import Lariat.Mm.ForkCopy

/-! The bytes a program sees, and what the kernel's stores through a program's addresses do to
them. -/
namespace Lariat.Mm

open Foundation.TableTree Reader Function Option Nat
open Foundation.ByteStore

/-- The user memory of table `r` as bytes, zero where nothing is mapped. -/
def userView (m : Mem) (r v : Nat) : UInt8 := if UserAddr v then (loadByte m r v).getD 0 else 0

variable {k : Machine} {m m' m'' : Mem} {roots : Finset Nat} {lost : Multiset Nat} {r v : Nat}
  {A B : Nat → Prop}

section Spaces

/-- A user address with a frame of the allocator's behind it. -/
def Backed (k : Machine) (m : Mem) (r v : Nat) : Prop :=
  UserAddr v ∧ ∃ e, k.reader.find m.table [] r (indices v) = some e ∧ e.frame < k.total

theorem Retouched.backed (h : Retouched r A m m') (hb : Backed k m r v) : Backed k m' r v := by
  rw [Backed,h.table]
  exact hb

theorem InRam.backed (h : InRam k m r) (hs : Sound k m roots lost) (hr : r ∈ roots)
    (hv : UserAddr v) (hb : (loadByte m r v).isSome) : Backed k m r v := by
  rw [loadByte,hs.mapping_user hr hv,isSome_map,isSome_map] at hb
  obtain ⟨e,he⟩ := Option.isSome_iff_exists.mp hb
  exact ⟨hv,e,he,h v hv e he⟩

theorem InRam.retouched (h : InRam k m r) (ht : Retouched r A m m') :
    InRam k m' r := by
  intro v hv e he
  rw [ht.table] at he
  exact h v hv e he

section User

variable (hs : Sound k m roots lost) (hr : r ∈ roots)
include hs hr

variable {e : Entry}

theorem Sound.mapping_found (hv : UserAddr v) (he : k.reader.find m.table [] r (indices v) = some e) :
    ∃ x, mapping m.table r v = some x ∧ x.phys / 4096 = e.frame ∧ x.phys % 4096 = v % 4096 := by
  rw [hs.mapping_user hr hv,he]
  exact ⟨_,rfl,phys_frame e.frame v,phys_offset e.frame v⟩

theorem Sound.loadByte_backed (hb : Backed k m r v) : loadByte m r v = some (userView m r v) := by
  obtain ⟨hv,e,he,-⟩ := hb
  obtain ⟨x,hx,-,-⟩ := hs.mapping_found hr hv he
  rw [userView,if_pos hv,loadByte,hx,map_some,getD_some]

/-- Two memories that map a user address to the same frame with the same bytes show the same
byte. -/
theorem userView_congr {roots' : Finset Nat} {lost' : Multiset Nat} (hs' : Sound k m' roots' lost')
    (hr' : r ∈ roots') (hv : UserAddr v) (he : k.reader.find m.table [] r (indices v) = some e)
    (he' : k.reader.find m'.table [] r (indices v) = some e) (hb : m'.byte e.frame = m.byte e.frame) :
    userView m' r v = userView m r v := by
  obtain ⟨x,hx,hxf,hxo⟩ := hs.mapping_found hr hv he
  obtain ⟨y,hy,hyf,hyo⟩ := hs'.mapping_found hr' hv he'
  rw [userView,userView,if_pos hv,if_pos hv,loadByte,loadByte,hx,hy,map_some,map_some,
    hxf,hxo,hyf,hyo,hb]

theorem Sound.storeByte_view (hb : Backed k m r v) (b : UInt8) :
    userView (storeByte m r v b) r = update (userView m r) v b := by
  obtain ⟨hv,e,he,hlt⟩ := hb
  obtain ⟨x,hx,hxf,hxo⟩ := hs.mapping_found hr hv he
  have hstore : storeByte m r v b =
      m.setPage e.frame (update (m.byte e.frame) (v % 4096) b) := by
    rw [storeByte,hx,elim_some,hxf,hxo]
  funext w
  by_cases hwv : w = v
  · rw [hwv,update_self,userView,if_pos hv,loadByte,storeByte_table,hx,hstore,
      map_some,getD_some,hxf,hxo]
    show update m.byte e.frame _ e.frame (v % 4096) = b
    rw [update_self,update_self]
  rw [update_of_ne hwv,userView,userView]
  by_cases hw : UserAddr w
  · rw [if_pos hw,if_pos hw,loadByte,loadByte,storeByte_table]
    cases he' : k.reader.find m.table [] r (indices w) with
    | none => rw [hs.mapping_user hr hw,he',map_none,map_none,map_none]
    | some e' =>
      obtain ⟨y,hy,hyf,hyo⟩ := hs.mapping_found hr hw he'
      rw [hy,map_some,map_some,hyf,hyo,hstore]
      refine congrArg (fun c => (some c).getD 0) ?_
      show update m.byte e.frame _ e'.frame (w % 4096) = m.byte e'.frame (w % 4096)
      by_cases hff : e'.frame = e.frame
      -- another byte of the page
      · have hpage := hs.same_page hr hv hw he he' hlt hff
        have hoff : w % 4096 ≠ v % 4096 := by
          rw [OnPage] at hpage
          omega
        rw [hff,update_self,update_of_ne hoff]
      · rw [update_of_ne hff]
  · rw [if_neg hw,if_neg hw]

theorem Sound.storeBytes_view {a : Nat} {bs : List UInt8}
    (hb : ∀ i < bs.length, Backed k m r (a+i)) :
    userView (storeBytes m r a bs) r = put (userView m r) a bs := by
  induction bs generalizing m a with
  | nil => rw [storeBytes,put_nil]
  | cons b bs ih =>
    have h0 : Backed k m r a := hb 0 (succ_pos _)
    have hwrap : wrap a = a := mod_eq_of_lt (lt_trans h0.1.2 (by decide))
    have hone := storeByte_retouched (m := m) r a b
    rw [storeBytes,hwrap,put_cons,ih (hone.sound hs) fun i hi => ?_,hs.storeByte_view hr h0]
    refine hone.backed ?_
    rw [add_assoc,add_comm 1]
    exact hb (i+1) (succ_lt_succ hi)

end User

end Spaces

end Lariat.Mm
