import Mathlib.Data.List.Forall2
import Lariat.Foundation.ByteStore

/-! The initial stack of a program: `setup_user_stack`, and what a program finds when it reads the
stack by the rules of the System V ABI. -/
namespace Lariat.Elf

open Foundation.ByteStore List Nat

def EXEC_MAXARG : Nat := 512

def AT_NULL : Nat := 0
def AT_RANDOM : Nat := 25

/-- A C string: its bytes up to the terminator. -/
structure CString where
  bytes : List UInt8
  no_nul : ∀ b ∈ bytes, b ≠ 0
  deriving DecidableEq

def CString.size (s : CString) : Nat := s.bytes.length+1

/-- The string of bytes none of which is the terminator. -/
def CString.ofBytes (bs : List UInt8) (h : bs.all (· != 0) = true) : CString :=
  ⟨bs,fun b hb => bne_iff_ne.mp (all_eq_true.mp h b hb)⟩

/-- An entry of the auxiliary vector, which `AT_NULL` ends. -/
structure AuxVal where
  key : Nat
  val : Nat
  key_ne : key ≠ AT_NULL
  key_lt : key < 0x10000000000000000
  val_lt : val < 0x10000000000000000

def sub64 (a b : Nat) : Nat :=
  (a + (0x10000000000000000 - b % 0x10000000000000000)) % 0x10000000000000000

section Setup

variable {σ : Type*} (write : σ → Nat → List UInt8 → σ)

/-- Copies each string below the one before it; also the addresses they get. -/
def pushStrings (m : σ) (sp : Nat) : List CString → σ × Nat × List Nat
  | [] => (m,sp,[])
  | s :: ss =>
    let sp := sub64 sp s.size
    let r := pushStrings (write m sp (s.bytes ++ [0])) sp ss
    (r.1,r.2.1,sp :: r.2.2)

def xorshift (r : UInt64) : UInt64 :=
  let r := r ^^^ (r <<< 13)
  let r := r ^^^ (r >>> 7)
  r ^^^ (r <<< 17)

def randomBytes : Nat → UInt64 → List UInt8
  | 0, _ => []
  | n+1, r => (xorshift r >>> 24).toUInt8 :: randomBytes n (xorshift r)

def randomSeed (top argv : Nat) : UInt64 :=
  UInt64.ofNat top ^^^ (UInt64.ofNat argv <<< 7) ^^^ 0x9e3779b97f4a7c15

/-- The pair of an entry; the random bytes are known by where they lie. -/
def AuxVal.pair (rand : Nat) (x : AuxVal) : Nat × Nat :=
  (x.key,if x.key = AT_RANDOM then rand else x.val)

def pairWords (xs : List (Nat × Nat)) : List Nat := xs.flatMap fun x => [x.1,x.2]

def stackWords (argp envpp : List Nat) (rand : Nat) (aux : List AuxVal) : List Nat :=
  argp.length :: (argp ++ 0 :: (envpp ++ 0 ::
    (pairWords (aux.map (AuxVal.pair rand)) ++ [AT_NULL,0])))

def stackEntries (argc envc naux : Nat) : Nat := 1 + (argc+1) + (envc+1) + (naux+1) * 2

/-- `setup_user_stack`, `argvAt` being where the kernel has the argument vector and the two flags
whether its two allocations succeed. -/
def setupUserStack (m : σ) (top argvAt : Nat) (argv envp : List CString) (aux : List AuxVal)
    (argpOk envppOk : Bool) : σ × Nat :=
  let argv := argv.take EXEC_MAXARG
  let envp := envp.take EXEC_MAXARG
  if !argpOk || !envppOk then (m,0)
  else
    let e := pushStrings write m top envp
    let a := pushStrings write e.1 e.2.1 argv
    let rand := sub64 a.2.1 16
    let m := write a.1 rand (randomBytes 16 (randomSeed top argvAt))
    let sp := rand - rand % 16
    let entries := stackEntries argv.length envp.length aux.length
    let sp := if entries % 2 = 1 then sub64 sp 8 else sp
    let stk := sub64 sp (8*entries)
    (write m stk (words (stackWords a.2.2 e.2.2 rand aux)),stk)

end Setup

section Decoding

/-- What a program finds on its stack: the two vectors of pointers and the auxiliary vector. -/
structure Startup where
  argp : List Nat
  envpp : List Nat
  auxv : List (Nat × Nat)

/-- The words up to a null one. -/
def pointers (m : Nat → UInt8) : Nat → Nat → List Nat
  | 0, _ => []
  | n+1, a => if val m 8 a = 0 then [] else val m 8 a :: pointers m n (a+8)

/-- The pairs up to `AT_NULL`. -/
def auxPairs (m : Nat → UInt8) : Nat → Nat → List (Nat × Nat)
  | 0, _ => []
  | n+1, a =>
    if val m 8 a = AT_NULL then [] else (val m 8 a,val m 8 (a+8)) :: auxPairs m n (a+16)

/-- The stack between `rsp` and its top, read by the rules of the ABI. -/
def decodeStack (m : Nat → UInt8) (top rsp : Nat) : Option Startup :=
  let argc := val m 8 rsp
  let envAt := rsp+8 * (argc+2)
  let envpp := pointers m (top-rsp) envAt
  if val m 8 (rsp+8 * (argc+1)) = 0 then
    some ⟨(List.range argc).map fun i => val m 8 (rsp+8 + 8*i),envpp,
      auxPairs m (top-rsp) (envAt+8 * (envpp.length+1))⟩
  else none

variable {m : Nat → UInt8} {a : Nat}

theorem Stands.word {w : Nat} (h : Stands m a (le 8 w)) (hw : w < 0x10000000000000000) :
    val m 8 a = w :=
  h.val.trans (mod_eq_of_lt hw)

theorem stands_vector {ps : List Nat} (h : Stands m a (words ps))
    (hlt : ∀ p ∈ ps, p < 0x10000000000000000) :
    ((List.range ps.length).map fun i => val m 8 (a+8 * i)) = ps := by
  induction ps generalizing a with
  | nil => rfl
  | cons p ps ih =>
    obtain ⟨hp,hps⟩ := stands_words_cons.mp h
    rw [length_cons,range_succ_eq_map,map_cons,map_map,mul_zero,
      add_zero,Stands.word hp (hlt p mem_cons_self)]
    refine congrArg (p :: ·) ?_
    have htail := ih hps fun q hq => hlt q (mem_cons_of_mem p hq)
    refine Eq.trans ?_ htail
    refine map_congr_left fun i _ => ?_
    show val m 8 (a+8 * (i+1)) = val m 8 (a+8 + 8*i)
    rw [mul_add,mul_one,add_comm (8*i),add_assoc]

theorem stands_pointers {ps : List Nat} {n : Nat} (h : Stands m a (words (ps ++ [0])))
    (hps : ∀ p ∈ ps, p ≠ 0 ∧ p < 0x10000000000000000) (hn : ps.length < n) :
    pointers m n a = ps := by
  induction ps generalizing a n with
  | nil =>
    obtain ⟨n,rfl⟩ := exists_eq_succ_of_ne_zero (ne_of_gt hn)
    rw [pointers,if_pos (Stands.word (stands_words_cons.mp h).1 (by decide))]
  | cons p ps ih =>
    obtain ⟨n,rfl⟩ := Nat.exists_eq_succ_of_ne_zero (Nat.ne_zero_of_lt hn)
    obtain ⟨hp,htail⟩ := stands_words_cons.mp h
    obtain ⟨h0,hlt⟩ := hps p mem_cons_self
    rw [pointers,Stands.word hp hlt,if_neg h0,
      ih htail (fun q hq => hps q (mem_cons_of_mem p hq)) (lt_of_succ_lt_succ hn)]

theorem stands_auxPairs {aux : List (Nat × Nat)} {n : Nat}
    (h : Stands m a (words (pairWords aux ++ [AT_NULL,0])))
    (haux : ∀ x ∈ aux, x.1 ≠ AT_NULL ∧ x.1 < 0x10000000000000000 ∧ x.2 < 0x10000000000000000)
    (hn : aux.length < n) : auxPairs m n a = aux := by
  induction aux generalizing a n with
  | nil =>
    obtain ⟨n,rfl⟩ := exists_eq_succ_of_ne_zero (ne_of_gt hn)
    rw [auxPairs,if_pos (Stands.word (stands_words_cons.mp h).1 (by decide))]
  | cons x aux ih =>
    obtain ⟨n,rfl⟩ := Nat.exists_eq_succ_of_ne_zero (Nat.ne_zero_of_lt hn)
    obtain ⟨hkey,hrest⟩ := stands_words_cons.mp h
    obtain ⟨hval,htail⟩ := stands_words_cons.mp hrest
    obtain ⟨h0,hk,hv⟩ := haux x mem_cons_self
    rw [auxPairs,Stands.word hkey hk,if_neg h0,Stands.word hval hv,
      ih htail (fun y hy => haux y (mem_cons_of_mem x hy)) (lt_of_succ_lt_succ hn)]

theorem stackWords_decode {top rsp rand : Nat} {argp envpp : List Nat} {aux : List AuxVal}
    (h : Stands m rsp (words (stackWords argp envpp rand aux)))
    (hargp : ∀ p ∈ argp, p < 0x10000000000000000)
    (henvpp : ∀ p ∈ envpp, p ≠ 0 ∧ p < 0x10000000000000000) (hrand : rand < 0x10000000000000000)
    (htop : rsp + 8 * stackEntries argp.length envpp.length aux.length ≤ top)
    (hlt : top < 0x10000000000000000) :
    decodeStack m top rsp = some ⟨argp,envpp,aux.map (AuxVal.pair rand)⟩ := by
  rw [stackEntries] at htop
  rw [stackWords,stands_words_cons] at h
  obtain ⟨hargc,h⟩ := h
  obtain ⟨hargs,h⟩ := stands_words_append.mp h
  obtain ⟨hnull,h⟩ := stands_words_cons.mp h
  rw [← singleton_append,← append_assoc] at h
  obtain ⟨henvs,haux⟩ := stands_words_append.mp h
  have hargc' : val m 8 rsp = argp.length := Stands.word hargc (by omega)
  have hat : rsp + 8+8 * argp.length = rsp+8 * (argp.length+1) := by omega
  have henvAt : rsp + 8+8 * argp.length+8 = rsp+8 * (argp.length+2) := by omega
  rw [hat] at hnull
  rw [henvAt] at henvs haux
  have henvp : pointers m (top-rsp) (rsp+8 * (argp.length+2)) = envpp :=
    stands_pointers henvs henvpp (by omega)
  have hpairs : auxPairs m (top-rsp) (rsp+8 * (argp.length+2) + 8 * (envpp.length+1)) =
      aux.map (AuxVal.pair rand) := by
    refine stands_auxPairs ?_ ?_ (by rw [length_map]; omega)
    · rwa [length_append,length_singleton] at haux
    · intro x hx
      obtain ⟨y,-,rfl⟩ := mem_map.mp hx
      refine ⟨y.key_ne,y.key_lt,?_⟩
      rw [AuxVal.pair]
      split_ifs
      · exact hrand
      · exact y.val_lt
  rw [decodeStack,hargc',henvp,hpairs,if_pos (Stands.word hnull (by decide)),stands_vector hargs hargp]

end Decoding

section Pushing

def total (ss : List CString) : Nat := (ss.map CString.size).sum

/-- Where the strings lie. -/
def stringRanges (ptrs : List Nat) (ss : List CString) : List (Nat × Nat) :=
  List.zipWith (fun p s => (p,s.size)) ptrs ss

/-- The strings stand one below the other in `[sp', sp)`, and nothing else has changed. -/
structure Pushed (m m' : Nat → UInt8) (sp sp' : Nat) (ss : List CString) (ptrs : List Nat) :
    Prop where
  room : sp' + total ss = sp
  same : ∀ x, x < sp' ∨ sp ≤ x → m' x = m x
  stands : List.Forall₂ (fun p s => Stands m' p (s.bytes ++ [0]) ∧ sp' ≤ p ∧ p+s.size ≤ sp) ptrs ss
  packed : Packed sp' sp (stringRanges ptrs ss)

theorem sub64_eq {a b : Nat} (h : b ≤ a) (ha : a < 0x10000000000000000) : sub64 a b = a - b := by
  rw [sub64,mod_eq_of_lt (lt_of_le_of_lt h ha)]
  omega

theorem CString.length_terminated (s : CString) : (s.bytes ++ [0]).length = s.size :=
  length_append

theorem total_cons (s : CString) (ss : List CString) : total (s :: ss) = s.size + total ss :=
  sum_cons

theorem size_le_total {s : CString} {ss : List CString} (h : s ∈ ss) : s.size ≤ total ss := by
  induction ss with
  | nil => cases h
  | cons q ss ih =>
    rw [total_cons]
    rcases mem_cons.mp h with rfl | h
    · exact le_add_right _ _
    · exact le_trans (ih h) (le_add_left _ _)

theorem pushStrings_pushed (m : Nat → UInt8) (sp : Nat) (ss : List CString) (h : total ss ≤ sp)
    (hsp : sp < 0x10000000000000000) :
    ∃ m' sp' ptrs, pushStrings put m sp ss = (m',sp',ptrs) ∧ Pushed m m' sp sp' ss ptrs := by
  induction ss generalizing m sp with
  | nil => exact ⟨m,sp,[],rfl,rfl,fun _ _ => rfl,.nil,Packed.nil sp sp⟩
  | cons s ss ih =>
    rw [total_cons] at h
    have hput := s.length_terminated
    obtain ⟨m',sp',ptrs,heq,hrest⟩ := ih (put m (sp-s.size) (s.bytes ++ [0])) (sp-s.size) (by omega)
      (by omega)
    have hroom := hrest.room
    refine ⟨m',sp',(sp-s.size) :: ptrs,by rw [pushStrings,sub64_eq (by omega) hsp,heq],
      by rw [total_cons]; omega,fun x hx => ?_,.cons ⟨?_,by omega,by omega⟩ ?_,?_⟩
    · rw [hrest.same x (by omega),put_outside (by omega)]
    -- the strings that follow lie below
    · exact (put_stands m (sp-s.size) (s.bytes ++ [0])).congr fun i _ =>
        hrest.same _ (Or.inr (le_add_right _ i))
    · exact hrest.stands.imp fun p q hpq => ⟨hpq.1,hpq.2.1,le_trans hpq.2.2 (sub_le sp _)⟩
    · have hbelow := hrest.packed.cons_below (r := (sp-s.size,s.size)) (le_refl _) (by omega)
      rwa [Nat.sub_add_cancel (Nat.le_of_add_right_le h)] at hbelow

variable {m m' : Nat → UInt8} {sp sp' : Nat} {ss : List CString} {ptrs : List Nat}

theorem Pushed.length_eq (h : Pushed m m' sp sp' ss ptrs) : ptrs.length = ss.length :=
  h.stands.length_eq

theorem forall_left {α β : Type*} {r : α → β → Prop} {p : α → Prop} {l : List α} {l' : List β}
    (h : List.Forall₂ r l l') (hr : ∀ a b, r a b → p a) : ∀ a ∈ l, p a := by
  induction h with
  | nil => exact nofun
  | cons hab _ ih => exact forall_mem_cons.mpr ⟨hr _ _ hab,ih⟩

theorem Pushed.pointer (h : Pushed m m' sp sp' ss ptrs) : ∀ p ∈ ptrs, sp' ≤ p ∧ p < sp :=
  forall_left h.stands fun p s hps => by
    have hs : 0 < s.size := succ_pos _
    omega

theorem strings_eq {n : Nat} (h : List.Forall₂ (fun p s => Stands m p (s.bytes ++ [0])) ptrs ss)
    (hn : ∀ s ∈ ss, s.size ≤ n) : ptrs.map (string m n) = ss.map CString.bytes := by
  induction h with
  | nil => rfl
  | @cons p s ptrs ss hps _ ih =>
    rw [map_cons,map_cons,hps.string s.no_nul (hn s mem_cons_self),
      ih fun q hq => hn q (mem_cons_of_mem s hq)]

/-- Strings that are still in place are what is read at their addresses. -/
theorem Pushed.strings (h : Pushed m m' sp sp' ss ptrs) {m1 : Nat → UInt8} {n : Nat}
    (hsame : ∀ x, sp' ≤ x → x < sp → m1 x = m' x) (hn : total ss ≤ n) :
    ptrs.map (string m1 n) = ss.map CString.bytes := by
  refine strings_eq (h.stands.imp fun p s hps => ?_) fun s hs => ?_
  · refine hps.1.congr fun i hi => hsame _ ?_ ?_
    · exact le_trans hps.2.1 (le_add_right p i)
    · rw [s.length_terminated] at hi
      omega
  · exact le_trans (size_le_total hs) hn

end Pushing

section Layout

theorem length_randomBytes (n : Nat) (r : UInt64) : (randomBytes n r).length = n := by
  induction n generalizing r with
  | zero => rfl
  | succ n ih => rw [randomBytes,length_cons,ih]

theorem length_pairWords (xs : List (Nat × Nat)) : (pairWords xs).length = 2 * xs.length := by
  induction xs with
  | nil => rfl
  | cons x xs ih =>
    rw [pairWords] at ih ⊢
    rw [flatMap_cons,length_append,ih]
    simp only [length_cons,length_nil]
    omega

theorem length_stackWords (argp envpp : List Nat) (rand : Nat) (aux : List AuxVal) :
    (stackWords argp envpp rand aux).length =
      stackEntries argp.length envpp.length aux.length := by
  simp only [stackWords,length_cons,length_append,length_pairWords,length_map,
    length_nil,stackEntries]
  omega

/-- The bytes the layout takes: the strings, the random bytes, and the words, both ends on
multiples of 16. -/
def stackNeed (top : Nat) (argv envp : List CString) (naux : Nat) : Nat :=
  let used := total envp + total argv + 16
  let entries := stackEntries argv.length envp.length naux
  used + (top-used) % 16 + 8 * (entries % 2) + 8*entries

theorem total_le_stackNeed (top : Nat) (argv envp : List CString) (naux : Nat) :
    total envp + total argv ≤ stackNeed top argv envp naux := by
  rw [stackNeed]
  omega

/-- Where the random bytes and the words go, below strings that end at `sp`. No subtraction
wraps. -/
structure StackPlaced (top sp rand stk : Nat) (argv envp : List CString) (naux : Nat) : Prop where
  rand_eq : sub64 sp 16 = rand
  stk_eq : sub64 (if stackEntries argv.length envp.length naux % 2 = 1 then
      sub64 (rand - rand % 16) 8 else rand - rand % 16)
    (8 * stackEntries argv.length envp.length naux) = stk
  above : rand + 16 = sp
  below : stk + 8 * stackEntries argv.length envp.length naux ≤ rand
  need : stk + stackNeed top argv envp naux = top
  aligned : stk % 16 = 0

theorem stackPlaced {top : Nat} (sp : Nat) (argv envp : List CString) (naux : Nat)
    (hsp : sp + total argv + total envp = top) (htop : top < 0x10000000000000000)
    (hneed : stackNeed top argv envp naux ≤ top) :
    ∃ rand stk, StackPlaced top sp rand stk argv envp naux := by
  have hdef : stackNeed top argv envp naux = total envp + total argv + 16 +
      (top - (total envp + total argv + 16)) % 16 +
      8 * (stackEntries argv.length envp.length naux % 2) +
      8 * stackEntries argv.length envp.length naux := rfl
  have hodd : (if stackEntries argv.length envp.length naux % 2 = 1 then
        sub64 (sp-16 - (sp-16) % 16) 8 else sp - 16 - (sp-16) % 16) =
      sp - 16 - (sp-16) % 16 - 8 * (stackEntries argv.length envp.length naux % 2) := by
    split_ifs with h1
    · rw [sub64_eq (by omega) (by omega),h1]
    · rw [mod_two_ne_one.mp h1]
      rfl
  refine ⟨sp-16,top - stackNeed top argv envp naux,sub64_eq (by omega) (by omega),?_,by omega,by omega,
    by omega,by omega⟩
  rw [hodd,sub64_eq (by omega) (by omega)]
  omega

/-- The stack a program starts on, `[lo, top)` being mapped for it. -/
structure InitialStack (m m' : Nat → UInt8) (rsp lo top : Nat) (argv envp : List CString)
    (aux : List AuxVal) (st : Startup) (rand : Nat) : Prop where
  aligned : rsp % 16 = 0
  decoded : decodeStack m' top rsp = some st
  args : st.argp.map (string m' (top-rsp)) = argv.map CString.bytes
  envs : st.envpp.map (string m' (top-rsp)) = envp.map CString.bytes
  auxv : st.auxv = aux.map (AuxVal.pair rand)
  packed : Packed lo top ((rsp,8 * stackEntries argv.length envp.length aux.length) :: (rand,16) ::
    (stringRanges st.argp argv ++ stringRanges st.envpp envp))
  frame : ∀ x, x < rsp ∨ top ≤ x → m' x = m x

theorem setupUserStack_startup (m : Nat → UInt8) {top size : Nat} (argvAt : Nat)
    {argv envp : List CString} {aux : List AuxVal} (hargc : argv.length ≤ EXEC_MAXARG)
    (henvc : envp.length ≤ EXEC_MAXARG) (htop : top < 0x10000000000000000) (hsize : size ≤ top)
    (hfit : stackNeed top argv envp aux.length ≤ size) :
    ∃ st rand, InitialStack m (setupUserStack put m top argvAt argv envp aux true true).1
      (setupUserStack put m top argvAt argv envp aux true true).2 (top-size) top argv envp aux st
      rand := by
  rw [setupUserStack,take_of_length_le hargc,take_of_length_le henvc,if_neg (by decide)]
  have htotal := total_le_stackNeed top argv envp aux.length
  obtain ⟨m1,sp1,envpp,heq,he⟩ := pushStrings_pushed m top envp (by omega) htop
  have heroom := he.room
  obtain ⟨m2,sp2,argp,haeq,ha⟩ := pushStrings_pushed m1 sp1 argv (by omega) (by omega)
  have haroom := ha.room
  have hargp := ha.length_eq
  have henvpp := he.length_eq
  obtain ⟨rand,stk,hrand,hstk,habove,hbelow,hneed,haligned⟩ :=
    stackPlaced sp2 argv envp aux.length (by omega) htop (by omega)
  simp only [heq,haeq,hrand,hstk]
  have hrb := length_randomBytes 16 (randomSeed top argvAt)
  have hws : (words (stackWords argp envpp rand aux)).length =
      8 * stackEntries argv.length envp.length aux.length := by
    rw [length_words,length_stackWords,hargp,henvpp]
  generalize hm3 : put m2 rand (randomBytes 16 (randomSeed top argvAt)) = m3
  have hstrings : ∀ x, sp2 ≤ x → put m3 stk (words (stackWords argp envpp rand aux)) x = m2 x :=
    fun x hx => by rw [put_outside (by omega),← hm3,put_outside (by omega)]
  refine ⟨⟨argp,envpp,aux.map (AuxVal.pair rand)⟩,rand,haligned,?_,?_,?_,rfl,?_,?_⟩
  · refine stackWords_decode (put_stands m3 stk _) (fun p hp => ?_) (fun p hp => ?_) (by omega) ?_ htop
    · have := ha.pointer p hp
      omega
    · have := he.pointer p hp
      omega
    · rw [hargp,henvpp]
      omega
  · exact ha.strings (fun x hx _ => hstrings x hx) (by omega)
  · refine he.strings (fun x hx _ => ?_) (by omega)
    rw [hstrings x (by omega),ha.same x (Or.inr hx)]
  · have hrandom : Packed rand sp2 [(rand,16)] :=
      Packed.singleton (le_refl _) (by dsimp only; omega)
    have hvector : Packed (top-size) rand
        [(stk,8 * stackEntries argv.length envp.length aux.length)] :=
      Packed.singleton (by dsimp only; omega) (by dsimp only; omega)
    have hboth := ha.packed.append he.packed (by omega) (by omega)
    exact hvector.append (hrandom.append hboth (by omega) (by omega)) (by omega) (by omega)
  · intro x hx
    rw [put_outside (by omega),← hm3,put_outside (by omega),ha.same x (by omega),
      he.same x (by omega)]

/-- One argument, one variable and the random bytes. -/
theorem one_argument_startup : ∃ st rand, InitialStack (fun _ => 0)
    (setupUserStack put (fun _ => 0) 0x7FC0000000 0 [.ofBytes [108,115] rfl] [.ofBytes [65,61] rfl]
      [⟨AT_RANDOM,0,by decide,by decide,by decide⟩] true true).1
    (setupUserStack put (fun _ => 0) 0x7FC0000000 0 [.ofBytes [108,115] rfl] [.ofBytes [65,61] rfl]
      [⟨AT_RANDOM,0,by decide,by decide,by decide⟩] true true).2
    (0x7FC0000000-0x100000) 0x7FC0000000 [.ofBytes [108,115] rfl] [.ofBytes [65,61] rfl]
    [⟨AT_RANDOM,0,by decide,by decide,by decide⟩] st rand :=
  setupUserStack_startup (fun _ => 0) 0 (by decide) (by decide) (by decide) (by decide) (by decide)

end Layout

section Simulation

variable {σ : Type*} {write : σ → Nat → List UInt8 → σ} {view : σ → Nat → UInt8} {inv : σ → Prop}
  {lo top : Nat}

/-- A store within `[lo, top)` puts the bytes into what is seen of the memory. -/
def Writes (write : σ → Nat → List UInt8 → σ) (view : σ → Nat → UInt8) (inv : σ → Prop)
    (lo top : Nat) : Prop :=
  ∀ m a bs, inv m → lo ≤ a → a+bs.length ≤ top →
    inv (write m a bs) ∧ view (write m a bs) = put (view m) a bs

section

variable {m : σ} (hw : Writes write view inv lo top) (hm : inv m) (htop : top < 0x10000000000000000)
include hw hm htop

theorem pushStrings_sim (sp : Nat) (ss : List CString) (h : lo + total ss ≤ sp)
    (hsp : sp ≤ top) : ∃ m' sp' ptrs, pushStrings write m sp ss = (m',sp',ptrs) ∧
      pushStrings put (view m) sp ss = (view m',sp',ptrs) ∧ inv m' ∧ sp' + total ss = sp ∧
      ptrs.length = ss.length := by
  induction ss generalizing m sp with
  | nil => exact ⟨m,sp,[],rfl,rfl,hm,rfl,rfl⟩
  | cons s ss ih =>
    rw [total_cons] at h
    obtain ⟨hinv,hview⟩ := hw m (sp-s.size) (s.bytes ++ [0]) hm (by omega)
      (by rw [s.length_terminated]; omega)
    obtain ⟨m',sp',ptrs,h1,h2,hm',hroom,hlen⟩ := ih hinv (sp-s.size) (by omega) (by omega)
    rw [hview] at h2
    rw [pushStrings,pushStrings,sub64_eq (by omega) (by omega),h1,h2,total_cons]
    exact ⟨m',sp',_,rfl,rfl,hm',by omega,congrArg (·+1) hlen⟩

/-- Any memory that is written like bytes gets the same stack. -/
theorem setupUserStack_sim (argvAt : Nat) {argv envp : List CString} {aux : List AuxVal}
    (hargc : argv.length ≤ EXEC_MAXARG) (henvc : envp.length ≤ EXEC_MAXARG)
    (hfit : lo + stackNeed top argv envp aux.length ≤ top) :
    inv (setupUserStack write m top argvAt argv envp aux true true).1 ∧
      view (setupUserStack write m top argvAt argv envp aux true true).1 =
        (setupUserStack put (view m) top argvAt argv envp aux true true).1 ∧
      (setupUserStack write m top argvAt argv envp aux true true).2 =
        (setupUserStack put (view m) top argvAt argv envp aux true true).2 := by
  have htotal := total_le_stackNeed top argv envp aux.length
  simp only [setupUserStack,take_of_length_le hargc,take_of_length_le henvc,Bool.not_true,
    Bool.or_self,Bool.false_eq_true,if_false]
  obtain ⟨m1,sp1,envpp,h1,h2,hm1,heroom,henvpp⟩ :=
    pushStrings_sim hw hm htop top envp (by omega) (le_refl _)
  obtain ⟨m2,sp2,argp,h3,h4,hm2,haroom,hargp⟩ :=
    pushStrings_sim hw hm1 htop sp1 argv (by omega) (by omega)
  obtain ⟨rand,stk,hrand,hstk,habove,hbelow,hneed,-⟩ :=
    stackPlaced sp2 argv envp aux.length (by omega) htop (by omega)
  simp only [h1,h2,h3,h4,hrand,hstk]
  have hrb := length_randomBytes 16 (randomSeed top argvAt)
  obtain ⟨h7,h8⟩ := hw m2 rand _ hm2 (by omega) (by rw [hrb]; omega)
  obtain ⟨h9,h10⟩ := hw _ stk (words (stackWords argp envpp rand aux)) h7 (by omega)
    (by rw [length_words,length_stackWords,hargp,henvpp]; omega)
  exact ⟨h9,by rw [h10,h8],trivial⟩

end

end Simulation

end Lariat.Elf
