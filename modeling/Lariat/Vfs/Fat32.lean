import Mathlib.Data.List.Enum
import Mathlib.Data.Nat.Find
import Mathlib.Order.Interval.Finset.Nat
import Mathlib.Tactic.IntervalCases

/-! The loops of the FAT32 driver that follow a chain of clusters, with the number of clusters they
read. -/
namespace Lariat.Vfs.Fat32

/-- The 32 bytes of a `fat32_dirent_t`. -/
abbrev Dirent := List UInt8

def ATTR_VOLUME_ID : UInt8 := 8
def ATTR_LFN : UInt8 := 15

namespace Dirent

variable (ent : Dirent)

def attr : UInt8 := ent.getD 11 0

def last : Bool := ent.getD 0 0 == 0

def deleted : Bool := ent.getD 0 0 == 0xE5

end Dirent

def lower (c : UInt8) : UInt8 := if 65 ≤ c ∧ c ≤ 90 then c-65+97 else c

/-- The two parts of a short name, without the blanks. -/
def joinShort {α : Type} [DecidableEq α] (blank dot : α) (src : List α) : List α :=
  let ext := ((src.drop 8).take 3).takeWhile (· != blank)
  (src.take 8).takeWhile (· != blank) ++ if ext = [] then [] else dot :: ext

/-- The string it leaves in `dst`. -/
def parseShortName (src : Dirent) : List UInt8 := ((joinShort 32 46 src).takeWhile (· != 0)).map lower

def nameMatch (ent : Dirent) (name : List UInt8) : Bool := parseShortName ent == name.map lower

/-- `fat` gives what `fat32_read_fat_entry` returns for any content of the table, `read` the bytes of
a cluster unless a sector of it cannot be read. -/
structure Volume where
  totalClusters : Nat
  bytesPerCluster : Nat
  fat : Nat → Nat
  read : Nat → Option (List UInt8)
  bytesPerCluster_pos : 0 < bytesPerCluster

def isCluster (c : Nat) : Bool := 2 ≤ c ∧ c ≤ 0x0FFFFFF6

/-- The entries of a cluster. -/
def entries (v : Volume) (buf : List UInt8) : List Dirent :=
  (List.range (v.bytesPerCluster / 32)).map fun i => (buf.drop (32*i)).take 32

section Follow

variable {ρ σ : Type} (v : Volume) (turn : σ → Nat → ρ ⊕ σ) (done : σ → ρ)

/-- A loop along a chain: `turn` reads a cluster and returns or goes on to the next. No result means
that it would read more than `reads` clusters. -/
def follow : Nat → σ → Nat → Option ρ
  | 0,s,c => if isCluster c then none else some (done s)
  | reads+1,s,c =>
    if isCluster c then
      match turn s c with
      | .inl r => some r
      | .inr s => follow reads s (v.fat c)
    else some (done s)

end Follow

variable (v : Volume)

/-- The bytes copied so far, and where to go on in the next cluster. -/
def readTurn (count : Nat) (s : List UInt8 × Nat) (c : Nat) : List UInt8 ⊕ List UInt8 × Nat :=
  match v.read c with
  | none => .inl s.1
  | some buf =>
    let got := s.1 ++ (List.range (min (count-s.1.length) (v.bytesPerCluster-s.2))).map fun i =>
      buf.getD (s.2+i) 0
    if got.length < count then .inr (got,0) else .inl got

/-- The clusters before the position are only looked up in the table. -/
def skip : Nat → Nat → Option Nat
  | 0,c => some c
  | n+1,c => if isCluster (v.fat c) then skip n (v.fat c) else none

def readCount (size pos : Nat) (count : BitVec 64) : Nat :=
  if (size : Int) < pos+count.toInt then size-pos else count.toNat

def fileRead (reads c size pos : Nat) (count : BitVec 64) : Option (List UInt8) :=
  if size ≤ pos then some []
  else
    match skip v (pos / v.bytesPerCluster) c with
    | none => some []
    | some c =>
      if readCount size pos count = 0 then some []
      else follow v (readTurn v (readCount size pos count)) Prod.fst reads ([],pos % v.bytesPerCluster) c

/-! ### Chains -/

/-- The clusters that the table gives from `c` on. -/
def chain (c n : Nat) : Nat := v.fat^[n] c

/-- The numbers of the chain are those of clusters of the volume. -/
def OnVolume (c : Nat) : Prop := ∀ n, isCluster (chain v c n) → chain v c n < v.totalClusters+2

variable {v} {c : Nat} {stop : Nat → Prop}

theorem OnVolume.skip (h : OnVolume v c) {n c' : Nat} (hs : Fat32.skip v n c = some c') : OnVolume v c' := by
  induction n generalizing c with
  | zero =>
    cases hs
    exact h
  | succ n ih =>
    rw [Fat32.skip] at hs
    split at hs
    · exact ih (fun m hm => h (m+1) hm) hs
    · cases hs

section

variable {ρ σ : Type} {turn : σ → Nat → ρ ⊕ σ} {done : σ → ρ} {s : σ}

end

/-! ### Where the operations end -/

variable (v)

/-- The cluster cannot be read, or has such an entry. -/
def Holds (p : Dirent → Bool) (x : Nat) : Prop := ∀ buf, v.read x = some buf → ∃ ent ∈ entries v buf, p ent

def Dirent.listed (ent : Dirent) : Bool :=
  !(ent.deleted || ent.attr == ATTR_LFN || ent.attr &&& ATTR_VOLUME_ID != 0)

variable {v}

/-- A directory of one cluster without room, which the table gives as its own successor. -/
def ring : Volume := ⟨1,32,fun _ => 2,fun _ => some (List.replicate 32 65),by decide⟩

end Lariat.Vfs.Fat32
