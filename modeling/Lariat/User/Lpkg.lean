import Mathlib.Algebra.BigOperators.Group.List.Basic
import Mathlib.Algebra.Ring.Nat
import Mathlib.Data.List.Chain
import Mathlib.Data.List.GetD

/-! The package manager's archives: parsing the header, and extracting the files it lists. -/
namespace Lariat.User.Lpkg
open List Option Nat

def MAX_FILES : Nat := 512

/-- An archive in memory. A zero byte follows it. -/
structure Archive where
  bytes : List UInt8
  small : bytes.length < 2^64

structure File where
  mode : UInt32
  size : UInt64
  path : List UInt8
  offset : UInt64 := 0

structure Pkg where
  name : List UInt8 := []
  version : List UInt8 := []
  arch : List UInt8
  deps : List UInt8 := []
  desc : List UInt8 := []
  files : List File := []
  payload : UInt64 := 0

def ascii (s : List Char) : List UInt8 := s.map fun c => UInt8.ofNat c.toNat

section Text

/-- What follows each newline, up to a zero byte: the places `strchr` takes `line` to. -/
def nextLines : List UInt8 → List (List UInt8)
  | [] => []
  | b :: rest => if b = 0 then [] else if b = 10 then rest :: nextLines rest else nextLines rest

def startsWith (s start : List UInt8) : Bool := start.isPrefixOf s

def copyVal (size : Nat) (s : List UInt8) : List UInt8 :=
  (s.takeWhile fun b => b ≠ 0 && b ≠ 10).take (size-1)

def parseOctal (s : List UInt8) : UInt32 :=
  (s.takeWhile fun b => 48 ≤ b && b ≤ 55).foldl (fun v b => (v <<< 3)+(b-48).toUInt32) 0

def digits (s : List UInt8) : UInt64 :=
  (s.takeWhile fun b => 48 ≤ b && b ≤ 57).foldl (fun v b => v*10+(b-48).toUInt64) 0

/-- The result as an unsigned word. -/
def atol (s : List UInt8) : UInt64 :=
  match s.dropWhile fun b => b = 32 || b = 9 with
  | 45 :: rest => -digits rest
  | 43 :: rest => digits rest
  | rest => digits rest

/-- To the next space, which may be on a later line, and over the spaces there. -/
def skipWord (s : List UInt8) : List UInt8 :=
  (s.dropWhile fun b => b ≠ 0 && b ≠ 32).dropWhile fun b => b = 32

end Text

section Parse

def FILES : List UInt8 := ascii ['%','F','I','L','E','S']
def DATA : List UInt8 := ascii ['%','D','A','T','A']

def setField (p : Pkg) (line : List UInt8) : Pkg :=
  if startsWith line (ascii ['n','a','m','e','=']) then { p with name := copyVal 64 (line.drop 5) }
  else if startsWith line (ascii ['v','e','r','s','i','o','n','=']) then
    { p with version := copyVal 32 (line.drop 8) }
  else if startsWith line (ascii ['a','r','c','h','=']) then { p with arch := copyVal 16 (line.drop 5) }
  else if startsWith line (ascii ['d','e','p','s','=']) then { p with deps := copyVal 256 (line.drop 5) }
  else if startsWith line (ascii ['d','e','s','c','=']) then { p with desc := copyVal 256 (line.drop 5) }
  else p

/-- The metadata lines, and the lines from the one where the loop stops. -/
def readMeta (p : Pkg) : List (List UInt8) → Pkg × List (List UInt8)
  | [] => (p,[])
  | [line] => (if line = [] ∨ startsWith line FILES then p else setField p line,[line])
  | line :: rest => if line = [] ∨ startsWith line FILES then (p,line :: rest) else readMeta (setField p line) rest

def readFile (line : List UInt8) : File where
  mode := parseOctal line
  size := atol (skipWord line)
  path := 47 :: copyVal 255 (skipWord (skipWord line))

def readFiles (fs : List File) : List (List UInt8) → Option (List File × List (List UInt8))
  | [] => some (fs,[])
  | line :: rest =>
    if line = [] ∨ startsWith line DATA then some (fs,line :: rest)
    else if MAX_FILES ≤ fs.length then none
    else if rest = [] then some (fs ++ [readFile line],[line])
    else readFiles (fs ++ [readFile line]) rest

/-- The text of the header: the fields, the files without their places, and where the payload starts. -/
def Archive.header (a : Archive) : Option Pkg :=
  if !startsWith a.bytes (ascii ['L','P','K','G','1','\n']) then none
  else match readMeta { arch := ascii ['x','8','6','_','6','4'] } (a.bytes.drop 6 :: nextLines (a.bytes.drop 6)) with
    | (p,line :: next :: rest) =>
      if !startsWith line FILES then none
      else match readFiles [] (next :: rest) with
        | some (fs,line :: body :: _) =>
          if !startsWith line DATA then none
          else some { p with files := fs, payload := UInt64.ofNat (a.bytes.length-body.length) }
        | _ => none
    | _ => none

/-- The files one after the other from `off` on, and the end of the last. -/
def assignOffsets (off : UInt64) : List File → List File × UInt64
  | [] => ([],off)
  | f :: fs => ({ f with offset := off } :: (assignOffsets (off+f.size) fs).1,(assignOffsets (off+f.size) fs).2)

def pkgParse (a : Archive) : Option Pkg :=
  a.header.bind fun p =>
    if a.bytes.length < (assignOffsets p.payload p.files).2.toNat ∨ p.name = [] then none
    else some { p with files := (assignOffsets p.payload p.files).1 }

end Parse

section Extract

/-- `write_all`, for the counts that successive `write` calls return; none is an error. -/
def writeAll : List Nat → List UInt8 → Option (List UInt8)
  | [], bytes => if bytes = [] then some [] else none
  | w :: ws, bytes =>
    if bytes = [] then some []
    else if w = 0 then none
    else (writeAll ws (bytes.drop w)).map (bytes.take w ++ ·)

/-- The bytes at an address in or after the archive. -/
def Archive.read (a : Archive) (beyond : Nat → UInt8) (off n : Nat) : List UInt8 :=
  (List.range n).map fun i => a.bytes.getD (off+i) (beyond (off+i))

/-- `extract_files`: what was written to which path, unless a file cannot be opened or written. -/
def extractFiles (a : Archive) (beyond : Nat → UInt8) :
    List File → List (Option (List Nat)) → Option (List (List UInt8 × UInt32 × List UInt8))
  | [], _ => some []
  | f :: fs, some ws :: calls =>
    (writeAll ws (a.read beyond f.offset.toNat f.size.toNat)).bind fun bytes =>
      (extractFiles a beyond fs calls).map ((f.path,f.mode,bytes) :: ·)
  | _ :: _, _ => none

end Extract

def total (fs : List File) : Nat := (fs.map fun f => f.size.toNat).sum

/-- Where the header says that the last file ends. -/
def Archive.declared (a : Archive) : Nat := (a.header.map fun p => p.payload.toNat+total p.files).getD 0

/-- The files lie in the archive after the header, one after the other, and these are the bytes that
extraction writes. -/
structure Contained (a : Archive) (p : Pkg) : Prop where
  inside : ∀ f ∈ p.files, p.payload ≤ f.offset ∧ f.offset.toNat+f.size.toNat ≤ a.bytes.length
  start : ∀ f ∈ p.files.head?, f.offset = p.payload
  consecutive : p.files.IsChain fun f g => g.offset.toNat = f.offset.toNat+f.size.toNat
  disjoint : p.files.Pairwise fun f g => f.offset.toNat+f.size.toNat ≤ g.offset.toNat
  extracted : ∀ beyond calls log, extractFiles a beyond p.files calls = some log →
    log = p.files.map fun f => (f.path,f.mode,(a.bytes.drop f.offset.toNat).take f.size.toNat)

section Places

variable {a : Archive} {fs : List File} {off : UInt64}

/-- As long as the words do not wrap, the files are laid out one after the other. -/
theorem assignOffsets_chain (h : off.toNat+total fs < 2^64) :
    (assignOffsets off fs).2.toNat = off.toNat+total fs ∧
      (∀ f ∈ (assignOffsets off fs).1.head?, f.offset = off) ∧
      ((assignOffsets off fs).1.IsChain fun f g => g.offset.toNat = f.offset.toNat+f.size.toNat) ∧
      ((assignOffsets off fs).1.Pairwise fun f g => f.offset.toNat+f.size.toNat ≤ g.offset.toNat) ∧
      ∀ f ∈ (assignOffsets off fs).1, off.toNat ≤ f.offset.toNat ∧
        f.offset.toNat+f.size.toNat ≤ off.toNat+total fs := by
  induction fs generalizing off with
  | nil => exact ⟨rfl,fun _ h => (nomatch h),.nil,.nil,fun _ h => (nomatch h)⟩
  | cons f fs ih =>
    have htotal : total (f :: fs) = f.size.toNat+total fs := rfl
    have hadd : (off+f.size).toNat = off.toNat+f.size.toNat := by
      rw [UInt64.toNat_add,mod_eq_of_lt (by omega)]
    have hrest : (off+f.size).toNat+total fs < 2^64 := by omega
    obtain ⟨hend,hfirst,hchain,hpair,hall⟩ := ih hrest
    refine ⟨by rw [assignOffsets,hend]; omega,fun g hg => ?_,?_,?_,?_⟩
    · cases hg
      rfl
    · refine isChain_cons.mpr ⟨fun g hg => ?_,hchain⟩
      rw [hfirst g hg,hadd]
    · refine pairwise_cons.mpr ⟨fun g hg => ?_,hpair⟩
      have hle := (hall g hg).1
      rw [hadd] at hle
      exact hle
    · refine forall_mem_cons.mpr ⟨⟨le_refl _,?_⟩,fun g hg => ?_⟩
      · show off.toNat+f.size.toNat ≤ _
        omega
      · obtain ⟨h1,h2⟩ := hall g hg
        omega

/-- The first file that wraps lies beyond every archive. -/
theorem total_lt_of_inside {n : Nat} (hn : n < 2^64)
    (h : ∀ f ∈ (assignOffsets off fs).1, f.offset.toNat+f.size.toNat ≤ n) : off.toNat+total fs < 2^64 := by
  induction fs generalizing off with
  | nil => exact off.toNat_lt
  | cons f fs ih =>
    have htotal : total (f :: fs) = f.size.toNat+total fs := rfl
    obtain ⟨hf,hfs⟩ := forall_mem_cons.mp h
    have hf : off.toNat+f.size.toNat ≤ n := hf
    have hlt := ih hfs
    rw [UInt64.toNat_add,mod_eq_of_lt (by omega)] at hlt
    omega

end Places

section Extraction

variable {a : Archive} {beyond : Nat → UInt8}

theorem writeAll_eq {ws : List Nat} {bytes out : List UInt8} (h : writeAll ws bytes = some out) : out = bytes := by
  induction ws generalizing bytes out with
  | nil =>
    obtain ⟨rfl,h⟩ := ite_none_right_eq_some.mp h
    exact (Option.some.inj h).symm
  | cons w ws ih =>
    rw [writeAll] at h
    split at h
    · rename_i hnil
      rw [hnil]
      exact (Option.some.inj h).symm
    · split at h
      · cases h
      · obtain ⟨rest,hrest,rfl⟩ := map_eq_some_iff.mp h
        rw [ih hrest,take_append_drop]

theorem extractFiles_eq {fs : List File} {calls : List (Option (List Nat))}
    {log : List (List UInt8 × UInt32 × List UInt8)} (h : extractFiles a beyond fs calls = some log) :
    log = fs.map fun f => (f.path,f.mode,a.read beyond f.offset.toNat f.size.toNat) := by
  induction fs generalizing calls log with
  | nil => exact (Option.some.inj h).symm
  | cons f fs ih =>
    unfold extractFiles at h
    split at h
    · rename_i heq
      cases heq
    · rename_i heq
      cases heq
      obtain ⟨bytes,hbytes,h⟩ := bind_eq_some_iff.mp h
      obtain ⟨rest,hrest,rfl⟩ := map_eq_some_iff.mp h
      rw [writeAll_eq hbytes,ih hrest]
      rfl
    · cases h

theorem Archive.read_inside {off n : Nat} (h : off+n ≤ a.bytes.length) :
    a.read beyond off n = (a.bytes.drop off).take n := by
  apply ext_getElem
  · rw [Archive.read,length_map,length_range,length_take,length_drop]
    omega
  · intro i hi _
    rw [Archive.read,length_map,length_range] at hi
    simp only [Archive.read,getElem_map,getElem_range,getElem_take,getElem_drop]
    exact getD_eq_getElem _ _ (by omega)

end Extraction

/-- The end of the last file is tested after it has been reduced to 64 bits. -/
theorem pkgParse_contained {a : Archive} {p : Pkg} (hp : pkgParse a = some p) :
    Contained a p ↔ a.declared < 2^64 := by
  obtain ⟨h,hh,hp⟩ := bind_eq_some_iff.mp hp
  obtain ⟨hok,hp⟩ := ite_none_left_eq_some.mp hp
  cases hp
  have hdecl : a.declared = h.payload.toNat+total h.files := by rw [Archive.declared,hh]; rfl
  rw [hdecl]
  constructor
  · exact fun hc => total_lt_of_inside a.small fun f hf => (hc.inside f hf).2
  · intro hlt
    obtain ⟨hend,hfirst,hchain,hpair,hall⟩ := assignOffsets_chain hlt
    have hlen : h.payload.toNat+total h.files ≤ a.bytes.length := hend ▸ Nat.le_of_not_lt (not_or.mp hok).1
    have hinside (f : File) (hf : f ∈ (assignOffsets h.payload h.files).1) :
        f.offset.toNat+f.size.toNat ≤ a.bytes.length := le_trans (hall f hf).2 hlen
    refine ⟨fun f hf => ⟨UInt64.le_iff_toNat_le.mpr (hall f hf).1,hinside f hf⟩,hfirst,hchain,hpair,?_⟩
    intro beyond calls log hlog
    rw [extractFiles_eq hlog]
    exact map_congr_left fun f hf => by rw [Archive.read_inside (hinside f hf)]

/-- A package with one file of one byte. -/
theorem pkgParse_contained_one : ∃ a p, pkgParse a = some p ∧ p.files.length = 1 ∧ Contained a p := by
  have hp : pkgParse ⟨ascii ['L','P','K','G','1','\n','n','a','m','e','=','a','\n','%','F','I','L','E','S','\n',
    '7',' ','1',' ','x','\n','%','D','A','T','A','\n','z'],by decide⟩ = some _ := rfl
  exact ⟨_,_,hp,rfl,(pkgParse_contained hp).mpr (by decide)⟩

/-- A file of size -1 is accepted. -/
theorem negative_size_accepted : ∃ a p, pkgParse a = some p ∧ a.bytes.length = 33 ∧
    (p.files.map fun f => (f.offset,f.size)) = [(33,18446744073709551615)] := by
  have hp : pkgParse ⟨ascii ['L','P','K','G','1','\n','n','a','m','e','=','a','\n','%','F','I','L','E','S','\n',
    '7',' ','-','1',' ','x','\n','%','D','A','T','A','\n'],by decide⟩ = some _ := rfl
  exact ⟨_,_,hp,rfl,rfl⟩

end Lariat.User.Lpkg
