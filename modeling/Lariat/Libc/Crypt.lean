import Mathlib.Data.List.TakeWhile

/-! `crypt_lite`: the hash of a password under either scheme, and the salt read back from it. -/
namespace Lariat.Libc.Crypt
open List

/-- The bytes of a C string up to its end; the empty one also stands for a null pointer. -/
abbrev CString := List UInt8

def clMix (h : UInt64) (s : CString) : UInt64 :=
  s.foldl (fun h c => let h := (h ^^^ c.toUInt64)*0x100000001b3; h ^^^ h >>> 29) h

/-- A loop that copies to `out` while there is room for a byte and the end. -/
def put (outsz : Nat) (out s : CString) : CString := out ++ s.take (outsz-1-out.length)

def hex (n : Nat) : UInt8 := if n < 10 then .ofNat (48+n) else .ofNat (87+n)

def hexDigits (h : UInt64) : CString :=
  (List.range 16).map fun i => hex ((h >>> (.ofNat ((15-i)*4))).toNat % 16)

/-- The loop that copies the salt, up to a `$`. -/
def saltOf (max : Nat) (p : CString) : CString := (p.takeWhile (· != 36)).take max

/-- What both schemes do from where the salt starts, with their own digest of it. -/
def scheme (pre : CString) (max : Nat) (digest : CString → List UInt64) (p : CString) (outsz : Nat) :
    CString :=
  let salt := saltOf max p
  (digest salt).foldl (fun out h => put outsz out (hexDigits h))
    (put outsz (put outsz (put outsz [] pre) salt) [36])

/-- `$L$`. -/
def preV1 : CString := [36,76,36]

/-- `$L2$`. -/
def preV2 : CString := [36,76,50,36]

def digestV1 (key salt : CString) : List UInt64 :=
  let h := clMix (clMix (clMix 1469598103934665603 salt) key) salt
  [(List.range 1000).foldl (fun h _ => let h := (h ^^^ h >>> 33)*0xff51afd7ed558ccd; h ^^^ h >>> 33) h]

def cryptLiteV1 (key setting : CString) : Nat → CString :=
  scheme preV1 8 (digestV1 key) (if setting.take 3 = preV1 then setting.drop 3 else setting)

/-- The array `s` of the second scheme. -/
structure Lanes where
  s0 : UInt64
  s1 : UInt64
  s2 : UInt64
  s3 : UInt64

def roundV2 (key salt : CString) (s : Lanes) (i : Nat) : Lanes :=
  let s0 := (s.s0 ^^^ s.s3 >>> 17)*0xff51afd7ed558ccd
  let s0 := s0 ^^^ s0 >>> 33
  let s1 := s.s1+s0
  let s1 := (s1 <<< 13 ||| s1 >>> 51)*0xc4ceb9fe1a85ec53
  let s2 := (s.s2 ^^^ s1)*0x9e3779b97f4a7c15
  let s2 := s2 ^^^ s2 >>> 29
  let s3 := s.s3+(s2 ^^^ .ofNat i)
  let s3 := s3 <<< 31 ||| s3 >>> 33
  if i &&& 0x3ff = 0 then ⟨clMix s0 salt,s1,clMix s2 key,s3⟩ else ⟨s0,s1,s2,s3⟩

def digestV2 (key salt : CString) : List UInt64 :=
  let s := (List.range 4096).foldl (roundV2 key salt) ⟨clMix 0x6a09e667f3bcc908 salt,
    clMix 0xbb67ae8584caa73b key,clMix 0x3c6ef372fe94f82b salt,clMix 0xa54ff53a5f1d36f1 key⟩
  [s.s0,s.s1,s.s2,s.s3]

def cryptLiteV2 (key setting : CString) : Nat → CString :=
  scheme preV2 16 (digestV2 key) (if setting.take 4 = preV2 then setting.drop 4
    else if setting.take 3 = preV1 then setting.drop 3 else setting)

def cryptLite (key setting : CString) (outsz : Nat) : CString :=
  if setting.take 3 = preV1 then cryptLiteV1 key setting outsz else cryptLiteV2 key setting outsz

theorem put_eq {n : Nat} {out s : CString} (h : out.length+s.length < n) : put n out s = out ++ s := by
  rw [put,take_of_length_le (by omega)]

/-- The salt has no `$`, so it is read back up to the one that follows it. -/
theorem saltOf_append (k : Nat) (p rest : CString) :
    saltOf k (saltOf k p ++ 36 :: rest) = saltOf k p := by
  have hsalt : ∀ c ∈ saltOf k p, (c != 36) = true := by
    intro c hc
    exact mem_takeWhile_imp (p := (· != 36)) (mem_of_mem_take hc)
  rw [saltOf,takeWhile_append_of_pos hsalt,takeWhile_cons_of_neg (by decide),append_nil]
  exact take_of_length_le (length_take_le _ _)

theorem scheme_back {n k : Nat} {pre : CString} (digest : CString → List UInt64) (q : CString)
    (h : pre.length+k+1 < n) :
    ∃ p, scheme pre k digest q n = pre ++ p ∧ scheme pre k digest p = scheme pre k digest q := by
  have hlen : (saltOf k q).length ≤ k := length_take_le _ _
  have hpre : put n [] pre = pre := put_eq (by rw [length_nil]; omega)
  have hsalt : put n pre (saltOf k q) = pre ++ saltOf k q := put_eq (by omega)
  have hend : put n (pre ++ saltOf k q) [36] = pre ++ (saltOf k q ++ [36]) := by
    rw [put_eq (by rw [length_append,length_singleton]; omega),append_assoc]
  -- the digits go behind whatever is there
  have hdigits (hash : List UInt64) : ∀ rest, ∃ rest',
      hash.foldl (fun out h => put n out (hexDigits h)) (pre ++ (saltOf k q ++ 36 :: rest)) = pre ++ (saltOf k q ++ 36 :: rest') := by
    induction hash with
    | nil => exact fun rest => ⟨rest,rfl⟩
    | cons w hash ih =>
      intro rest
      rw [foldl_cons,put,append_assoc,append_assoc,cons_append]
      exact ih _
  obtain ⟨rest,hrest⟩ := hdigits (digest (saltOf k q)) []
  refine ⟨saltOf k q ++ 36 :: rest,?_,?_⟩
  · rw [scheme,hpre,hsalt,hend,hrest]
  · funext m
    rw [scheme,saltOf_append,scheme]

/-- A hash verifies against the password it was made of. -/
theorem cryptLite_verifies (key setting : CString) {n : Nat} (hn : 96 ≤ n) (m : Nat) :
    cryptLite key (cryptLite key setting n) m = cryptLite key setting m := by
  by_cases h1 : setting.take 3 = preV1
  · have hout (m : Nat) : cryptLite key setting m = cryptLiteV1 key setting m := if_pos h1
    have hback (p : CString) : cryptLite key (preV1 ++ p) m = scheme preV1 8 (digestV1 key) p m := rfl
    have hroom : preV1.length+8+1 < n := by show 3+8+1 < n; omega
    rw [hout,hout,cryptLiteV1]
    obtain ⟨p,hp,hsame⟩ := scheme_back (digestV1 key) _ hroom
    rw [hp,hback,hsame]
  have hout (m : Nat) : cryptLite key setting m = cryptLiteV2 key setting m := if_neg h1
  have hback (p : CString) : cryptLite key (preV2 ++ p) m = scheme preV2 16 (digestV2 key) p m := rfl
  have hroom : preV2.length+16+1 < n := by show 4+16+1 < n; omega
  rw [hout,hout,cryptLiteV2]
  obtain ⟨p,hp,hsame⟩ := scheme_back (digestV2 key) _ hroom
  rw [hp,hback,hsame]

theorem cryptLite_verifies_bare :
    cryptLite [97] (cryptLite [97] [36,76] 96) 96 = cryptLite [97] [36,76] 96 :=
  cryptLite_verifies _ _ (Nat.le_refl 96) 96

end Lariat.Libc.Crypt
