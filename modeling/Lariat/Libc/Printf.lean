import Mathlib.Data.Nat.Digits.Defs

/-! `vsnprintf`: every conversion written through a position that may pass the end of the buffer. -/
namespace Lariat.Libc.Printf

open List BitVec

/-- What `va_arg` finds: a word, or a pointer to a string. -/
structure Arg where
  word : BitVec 64 := 0
  str : Option (List UInt8) := none

inductive Conv where
  | s
  | c
  | d
  | u
  | x (upper : Bool)
  | p
  | percent
  | other (ch : UInt8)

/-- The `switch` on the character behind the `l`s. -/
def Conv.of (ch : UInt8) : Conv :=
  if ch = 115 then .s
  else if ch = 99 then .c
  else if ch = 100 ∨ ch = 105 then .d
  else if ch = 117 then .u
  else if ch = 120 ∨ ch = 88 then .x (ch = 88)
  else if ch = 112 then .p
  else if ch = 37 then .percent
  else .other ch

/-- How many arguments it takes. -/
def Conv.args : Conv → Nat
  | .percent | .other _ => 0
  | _ => 1

def digs (upper : Bool) (d : Nat) : UInt8 :=
  .ofNat (if d < 10 then 48+d else if upper then 55+d else 87+d)

structure Out where
  buf : Nat → UInt8
  pos : Nat := 0

variable (n : Nat)

def Out.put (o : Out) (ch : UInt8) : Out :=
  ⟨fun i => if i = o.pos ∧ o.pos < n-1 then ch else o.buf i,o.pos+1⟩

def Out.puts (o : Out) (cs : List UInt8) : Out := cs.foldl (put n) o

/-- The position as the helpers return it. -/
def Out.viaInt (o : Out) : Out := { o with pos := ((BitVec.ofNat 32 o.pos).signExtend 64).toNat }

def putStr (o : Out) (s : List UInt8) : Out := (o.puts n s).viaInt

/-- What the loop leaves in `tmp`, the last digit first. -/
def tmp (base : Nat) (upper : Bool) : Nat → Nat → List UInt8
  | 0,_ => []
  | room+1,v => if v = 0 then [] else digs upper (v % base) :: tmp base upper room (v/base)

def putUint (o : Out) (v : BitVec 64) (base : Nat) (upper : Bool) : Out :=
  (o.puts n (if v = 0 then [48] else tmp base upper 32 v.toNat).reverse).viaInt

def convert (o : Out) (lng : Nat) (a : Arg) : Conv → Out
  | .s => putStr n o (a.str.getD [40,110,117,108,108,41])
  | .c => o.put n ⟨a.word.setWidth 8⟩
  | .d =>
    let v := if lng = 0 then (a.word.setWidth 32).signExtend 64 else a.word
    if v.slt 0 then putUint n (o.put n 45) (-v) 10 false else putUint n o v 10 false
  | .u => putUint n o (if lng = 0 then (a.word.setWidth 32).setWidth 64 else a.word) 10 false
  | .x upper => putUint n o (if lng = 0 then (a.word.setWidth 32).setWidth 64 else a.word) 16 upper
  | .p => putUint n (putStr n o [48,120]) a.word 16 false
  | .percent => o.put n 37
  | .other ch => (o.put n 37).put n ch

variable (args : Nat → Arg)

/-- The loop over the format, with the `l`s counted since a `%`. -/
def loop : List UInt8 → Option Nat → Nat → Out → Out
  | [],_,_,o => o
  | ch :: fmt,none,i,o =>
    if ch = 37 then loop fmt (some 0) i o else loop fmt none i (o.put n ch)
  | ch :: fmt,some lng,i,o =>
    if ch = 108 then loop fmt (some (lng+1)) i o
    else loop fmt none (i+(Conv.of ch).args) (convert n o lng (args i) (.of ch))

def vsnprintf (buf : Nat → UInt8) (fmt : List UInt8) : (Nat → UInt8) × Int :=
  if n = 0 then (buf,0)
  else
    let o := loop n args fmt none 0 ⟨buf,0⟩
    (fun i => if i = (if o.pos < n then o.pos else n-1) then 0 else o.buf i,(BitVec.ofNat 32 o.pos).toInt)

/-! The reference: the text of each conversion, one after the other. -/

def numeral (base : Nat) (upper : Bool) (v : Nat) : List UInt8 :=
  if v = 0 then [48] else ((Nat.digits base v).map (digs upper)).reverse

def decimal (z : Int) : List UInt8 :=
  (if z < 0 then [45] else []) ++ numeral 10 false z.natAbs

def text (lng : Nat) (a : Arg) : Conv → List UInt8
  | .s => a.str.getD [40,110,117,108,108,41]
  | .c => [⟨a.word.setWidth 8⟩]
  | .d => decimal (if lng = 0 then (a.word.setWidth 32).toInt else a.word.toInt)
  | .u => numeral 10 false (if lng = 0 then (a.word.setWidth 32).toNat else a.word.toNat)
  | .x upper => numeral 16 upper (if lng = 0 then (a.word.setWidth 32).toNat else a.word.toNat)
  | .p => [48,120] ++ numeral 16 false a.word.toNat
  | .percent => [37]
  | .other ch => [37,ch]

def format : List UInt8 → Option Nat → Nat → List UInt8
  | [],_,_ => []
  | ch :: fmt,none,i => if ch = 37 then format fmt (some 0) i else ch :: format fmt none i
  | ch :: fmt,some lng,i =>
    if ch = 108 then format fmt (some (lng+1)) i
    else text lng (args i) (.of ch) ++ format fmt none (i+(Conv.of ch).args)

def reference (fmt : List UInt8) : List UInt8 := format args fmt none 0

section

variable {n args} (o : Out) (cs : List UInt8)

theorem puts_append (cs' : List UInt8) : o.puts n (cs ++ cs') = (o.puts n cs).puts n cs' :=
  foldl_append

theorem puts_pos : (o.puts n cs).pos = o.pos+cs.length := by
  induction cs generalizing o with
  | nil => rfl
  | cons ch cs ih => exact (ih (o.put n ch)).trans (by simp [Out.put]; omega)

theorem puts_buf (i : Nat) : (o.puts n cs).buf i =
    if o.pos ≤ i ∧ i < min (n-1) (o.pos+cs.length) then cs.getD (i-o.pos) 0 else o.buf i := by
  induction cs generalizing o with
  | nil => exact (if_neg (by simp; omega)).symm
  | cons ch cs ih =>
    have hpos : (o.put n ch).pos = o.pos+1 := rfl
    have hbuf : (o.put n ch).buf i = if i = o.pos ∧ o.pos < n-1 then ch else o.buf i := rfl
    refine (ih (o.put n ch)).trans ?_
    rw [hpos,hbuf,length_cons,← add_assoc,add_right_comm]
    rcases Nat.lt_trichotomy i o.pos with h | rfl | h
    · rw [if_neg (by omega),if_neg (by omega),if_neg (by omega)]
    · rw [if_neg (by omega),Nat.sub_self]
      exact if_congr (by omega) rfl rfl
    · rw [if_neg (t := ch) (by omega),show i-o.pos = i-(o.pos+1)+1 by omega]
      exact if_congr (by omega) rfl rfl

variable {o cs}

theorem viaInt_eq (h : o.pos < 2^31) : o.viaInt = o := by
  have : ((BitVec.ofNat 32 o.pos).signExtend 64).toNat = o.pos := by
    rw [signExtend_eq_setWidth_of_msb_false]
    · simp; omega
    · rw [msb_eq_false_iff_two_mul_lt]; simp; omega
  rw [Out.viaInt,this]

theorem tmp_eq {base : Nat} (hb : 1 < base) (upper : Bool) (room : Nat) {v : Nat} (h : v < base^room) :
    tmp base upper room v = (Nat.digits base v).map (digs upper) := by
  induction room generalizing v with
  | zero =>
    obtain rfl := Nat.lt_one_iff.mp h
    simp [tmp]
  | succ room ih =>
    rw [tmp]
    split
    · simp [*]
    · rw [Nat.digits_def' hb (by omega),ih (Nat.div_lt_of_lt_mul (by rwa [Nat.pow_succ'] at h))]
      rfl

theorem putUint_eq {v : BitVec 64} {base : Nat} (hb : 10 ≤ base) {upper : Bool}
    (h : o.pos+(numeral base upper v.toNat).length < 2^31) :
    putUint n o v base upper = o.puts n (numeral base upper v.toNat) := by
  have hv : v.toNat < base^32 := v.isLt.trans (Nat.lt_of_lt_of_le (by decide) (Nat.pow_le_pow_left hb 32))
  have he : (if v = 0 then [48] else tmp base upper 32 v.toNat).reverse = numeral base upper v.toNat := by
    rw [tmp_eq (by omega) upper 32 hv,apply_ite List.reverse,numeral]
    exact if_congr (toNat_eq ..) rfl rfl
  rw [putUint,he]
  exact viaInt_eq (by rwa [puts_pos])

/-- The most negative number is its own negative, whose unsigned value is the one to print. -/
theorem putInt_eq {v : BitVec 64} (h : o.pos+(decimal v.toInt).length < 2^31) :
    (if v.slt 0 then putUint n (o.put n 45) (-v) 10 false else putUint n o v 10 false) =
      o.puts n (decimal v.toInt) := by
  rw [decimal] at h ⊢
  rw [show v.slt 0 = decide (v.toInt < 0) from rfl]
  by_cases hv : v.toInt < 0
  · have habs : v.toInt.natAbs = (-v).toNat := by
      rw [toInt_eq_toNat_cond] at hv ⊢
      rw [toNat_neg]
      split at hv <;> omega
    rw [if_pos hv,habs] at h ⊢
    rw [if_pos (decide_eq_true hv)]
    exact putUint_eq (by decide) (by rwa [length_append,← add_assoc] at h)
  · have habs : v.toInt.natAbs = v.toNat := by
      rw [toInt_eq_toNat_cond] at hv ⊢
      split at hv <;> omega
    rw [if_neg hv,habs] at h ⊢
    rw [if_neg (by simpa using hv)]
    exact putUint_eq (by decide) h

theorem convert_eq {lng : Nat} {a : Arg} {conv : Conv} (h : o.pos+(text lng a conv).length < 2^31) :
    convert n o lng a conv = o.puts n (text lng a conv) := by
  have hu : (if lng = 0 then (a.word.setWidth 32).toNat else a.word.toNat) =
      (if lng = 0 then (a.word.setWidth 32).setWidth 64 else a.word).toNat := by
    split
    · simp; omega
    · rfl
  cases conv with
  | s => exact viaInt_eq (by rwa [puts_pos])
  | c | percent | other => rfl
  | d =>
    have hz : (if lng = 0 then (a.word.setWidth 32).toInt else a.word.toInt) =
        (if lng = 0 then (a.word.setWidth 32).signExtend 64 else a.word).toInt := by
      split
      · rw [toInt_signExtend_of_le (by decide)]
      · rfl
    rw [text,hz] at h ⊢
    exact putInt_eq h
  | u | x =>
    rw [text,hu] at h ⊢
    exact putUint_eq (by decide) h
  | p =>
    rw [text,length_append] at h
    have hpre : putStr n o [48,120] = o.puts n [48,120] := viaInt_eq (by rw [puts_pos]; omega)
    rw [convert,text,hpre,puts_append]
    exact putUint_eq (by decide) (by rwa [puts_pos,add_assoc])

theorem loop_eq {fmt : List UInt8} {lng : Option Nat} {i : Nat} (h : o.pos+(format args fmt lng i).length < 2^31) :
    loop n args fmt lng i o = o.puts n (format args fmt lng i) := by
  induction fmt generalizing lng i o with
  | nil => rfl
  | cons ch fmt ih =>
    cases lng with
    | none =>
      rw [loop]
      rw [format] at h ⊢
      split <;> rename_i hc
      · rw [if_pos hc] at h
        exact ih h
      · rw [if_neg hc,length_cons,← add_assoc,add_right_comm] at h
        exact ih h
    | some lng =>
      rw [loop]
      rw [format] at h ⊢
      split <;> rename_i hc
      · rw [if_pos hc] at h
        exact ih h
      · rw [if_neg hc,length_append,← add_assoc] at h
        rw [convert_eq (by omega),puts_append]
        exact ih (by rwa [puts_pos])

end

/-- The buffer holds as much of the formatting as fits and the end; all else is as it was. -/
theorem vsnprintf_formats (buf : Nat → UInt8) (fmt : List UInt8) (hn : 1 ≤ n)
    (h : (reference args fmt).length < 2^31) : vsnprintf n args buf fmt =
      (fun i => if i < min (n-1) (reference args fmt).length then (reference args fmt).getD i 0
        else if i = min (n-1) (reference args fmt).length then 0 else buf i,
      ((reference args fmt).length : Int)) := by
  have hend : (if (reference args fmt).length < n then (reference args fmt).length else n-1) =
      min (n-1) (reference args fmt).length := by split <;> omega
  have hint : (BitVec.ofNat 32 (reference args fmt).length).toInt = (reference args fmt).length := by
    rw [toInt_eq_toNat_cond]; simp; omega
  rw [vsnprintf,if_neg (by omega),loop_eq ((zero_add _).trans_lt h),← reference]
  simp only [puts_pos,puts_buf,zero_add,zero_le,true_and,hend,hint]
  refine Prod.ext (funext fun i => ?_) rfl
  dsimp only
  split
  · rename_i hi
    rw [if_neg (by omega)]
  · rfl

/-- `%d` of the most negative `int` into four bytes. -/
theorem vsnprintf_formats_min : (vsnprintf 4 (fun _ => ⟨0x80000000,none⟩) (fun _ => 255) [37,100]).2 = 11 ∧
    (List.range 5).map (vsnprintf 4 (fun _ => ⟨0x80000000,none⟩) (fun _ => 255) [37,100]).1 =
      [45,50,49,0,255] := by
  rw [vsnprintf_formats 4 _ _ _ (by decide) (by decide)]
  decide

end Lariat.Libc.Printf
