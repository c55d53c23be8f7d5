import Lariat.Kernel.Unblockable

/-! Nested signal handlers: frames are pushed by deliveries at any system call and popped
by `rt_sigreturn`, and the interrupted context comes back when the last one is gone. -/
namespace Lariat.Kernel.Signal
open Foundation.Runs Foundation.Sweep Sched Futex Function Option List BitVec

/-- How far an address lies below the top of the stack. -/
def depth (top a : BitVec 64) : Nat := (top-a).toNat

section Depth

variable {top a b : BitVec 64} {k : Nat}

theorem depth_sub (h : depth top a + k < 0x10000000000000000) : depth top (a - BitVec.ofNat 64 k) = depth top a + k := by
  unfold depth at h ⊢
  have hk : (BitVec.ofNat 64 k).toNat = k := by
    rw [toNat_ofNat]
    exact Nat.mod_eq_of_lt (by omega)
  have he : top - (a - BitVec.ofNat 64 k) = top-a + BitVec.ofNat 64 k := by bv_omega
  rw [he,toNat_add,hk,Nat.mod_eq_of_lt h]

theorem depth_add (h : k ≤ depth top a) : depth top (a + BitVec.ofNat 64 k) = depth top a - k := by
  unfold depth at h ⊢
  have hlt := (top-a).isLt
  have hk : (BitVec.ofNat 64 k).toNat = k := by
    rw [toNat_ofNat]
    exact Nat.mod_eq_of_lt (by omega)
  have he : top - (a + BitVec.ofNat 64 k) = top-a - BitVec.ofNat 64 k := by bv_omega
  rw [he,toNat_sub_of_le (by rw [le_def,hk]; exact h),hk]

end Depth

/-- A 64-bit load from the words of one address space. -/
def fetch (mem : BitVec 64 → Option (BitVec 32)) (addr : BitVec 64) : Option (BitVec 64) :=
  (mem addr).bind fun lo => (mem (addr+4)).map fun hi => (hi ++ lo : BitVec 64)

section Fetch

variable {mem mem' : BitVec 64 → Option (BitVec 32)} {a b v : BitVec 64}

theorem fetch_congr (h : mem a = mem' a) (h4 : mem (a+4) = mem' (a+4)) : fetch mem a = fetch mem' a := by
  rw [fetch,fetch,h,h4]

theorem fetch_store : fetch (store mem a v) a = some v := by
  have hne : a ≠ a+4 := by bv_omega
  rw [fetch,store,update_of_ne hne,update_self,update_self]
  refine congrArg some (eq_of_getLsbD_eq fun i hi => ?_)
  grind

theorem store_of_ne (h : b ≠ a) (h4 : b ≠ a+4) : store mem a v b = mem b := by
  rw [store,update_of_ne h4,update_of_ne h]

theorem fetch_store_of_ne (h : b ≠ a) (hr : b ≠ a+4) (hl : b+4 ≠ a) :
    fetch (store mem a v) b = fetch mem b :=
  fetch_congr (store_of_ne h hr) (store_of_ne hl (by bv_omega))

end Fetch

/-- The context that a delivery saves at `addr`. -/
structure Frame where
  addr : BitVec 64
  rip : BitVec 64
  rflags : BitVec 64
  rsp : BitVec 64
  rax : BitVec 64
  mask : BitVec 64
  deriving DecidableEq, Repr

/-- The words of the frame are in memory. -/
structure Holds (mem : BitVec 64 → Option (BitVec 32)) (f : Frame) : Prop where
  rip : fetch mem f.addr = some f.rip
  rflags : fetch mem (f.addr+8) = some f.rflags
  rsp : fetch mem (f.addr+16) = some f.rsp
  rax : fetch mem (f.addr+24) = some f.rax
  mask : fetch mem (f.addr+32) = some f.mask

/-- The frame of a thread that is about to return `retVal`. -/
def frameOf (r : Thread) (retVal : BitVec 64) : Frame where
  addr := frameBase r.tmpRsp
  rip := r.tmpRip
  rflags := r.tmpRflags
  rsp := r.tmpRsp
  rax := retVal
  mask := r.sigMask

theorem saveFrame_holds (mem : BitVec 64 → Option (BitVec 32)) (r : Thread) (retVal : BitVec 64) :
    Holds (saveFrame mem r retVal) (frameOf r retVal) := by
  simp only [saveFrame,frameOf]
  generalize frameBase r.tmpRsp = fr
  constructor
  · iterate 5 rw [fetch_store_of_ne (by bv_omega) (by bv_omega) (by bv_omega)]
    exact fetch_store
  · iterate 4 rw [fetch_store_of_ne (by bv_omega) (by bv_omega) (by bv_omega)]
    exact fetch_store
  · iterate 3 rw [fetch_store_of_ne (by bv_omega) (by bv_omega) (by bv_omega)]
    exact fetch_store
  · iterate 2 rw [fetch_store_of_ne (by bv_omega) (by bv_omega) (by bv_omega)]
    exact fetch_store
  · rw [fetch_store_of_ne (by bv_omega) (by bv_omega) (by bv_omega)]
    exact fetch_store

variable {r : Thread}

theorem saveFrame_of_apart {mem : BitVec 64 → Option (BitVec 32)} {retVal x : BitVec 64}
    (h : 48 ≤ (x - (frameBase r.tmpRsp - 8)).toNat) : saveFrame mem r retVal x = mem x := by
  simp only [saveFrame]
  generalize frameBase r.tmpRsp = fr at h ⊢
  iterate 6 rw [store_of_ne (by bv_omega) (by bv_omega)]

/-- The 48 bytes that a delivery writes for the frame. -/
def Frame.Covers (f : Frame) (x : BitVec 64) : Prop := ∃ k < 48, x = f.addr-8 + BitVec.ofNat 64 k

/-- The 128 bytes below the interrupted stack pointer. -/
def Frame.RedZone (f : Frame) (x : BitVec 64) : Prop := ∃ k < 128, x = f.rsp-128 + BitVec.ofNat 64 k

/-- No frame lies over the red zone of the code it interrupted, or over an outer frame
or the red zone below that. -/
def Apart (frames : List Frame) : Prop :=
  (∀ f ∈ frames, ∀ x, f.Covers x → ¬ f.RedZone x) ∧
    frames.Pairwise fun f g => ∀ x, f.Covers x → ¬ g.Covers x ∧ ¬ g.RedZone x

/-- Each frame, counted from the innermost, was pushed below the next one. -/
def Stacked (top : BitVec 64) : List Frame → Prop
  | [] => True
  | f :: fs => f.addr = frameBase f.rsp ∧ depth top f.rsp + 191 < 0x10000000000000000 ∧
      (∀ g ∈ fs.head?, depth top g.addr ≤ depth top f.rsp) ∧ Stacked top fs

section Stacked

variable {top x : BitVec 64} {f g : Frame} {fs : List Frame}

theorem depth_frameBase {rsp : BitVec 64} (h : depth top rsp + 191 < 0x10000000000000000) :
    depth top rsp + 168 ≤ depth top (frameBase rsp) ∧ depth top (frameBase rsp) < depth top rsp + 184 := by
  obtain ⟨j,h1,h2,hj⟩ := frameBase_eq rsp
  rw [hj,depth_sub (by omega)]
  omega

theorem Stacked.mem (h : Stacked top fs) (hg : g ∈ fs) :
    g.addr = frameBase g.rsp ∧ depth top g.rsp + 191 < 0x10000000000000000 := by
  induction fs with
  | nil => cases hg
  | cons f fs ih =>
    rcases mem_cons.mp hg with rfl | hg
    · exact ⟨h.1,h.2.1⟩
    · exact ih h.2.2.2 hg

theorem Stacked.deep (h : Stacked top fs) (hg : g ∈ fs) : 40 ≤ depth top g.addr := by
  obtain ⟨ha,hd⟩ := h.mem hg
  have hb := depth_frameBase hd
  rw [← ha] at hb
  omega

theorem Stacked.outer (h : Stacked top (f :: fs)) (hg : g ∈ fs) : depth top g.addr ≤ depth top f.rsp := by
  induction fs generalizing f with
  | nil => cases hg
  | cons g' fs ih =>
    obtain ⟨_,_,hhead,hs⟩ := h
    have hle := hhead g' rfl
    rcases mem_cons.mp hg with rfl | hg
    · exact hle
    · have hd := depth_frameBase hs.2.1
      rw [← hs.1] at hd
      have := ih hs hg
      omega

theorem depth_covers (ha : f.addr = frameBase f.rsp) (hd : depth top f.rsp + 191 < 0x10000000000000000)
    (hx : f.Covers x) : depth top f.addr < depth top x + 40 ∧ depth top x ≤ depth top f.addr + 8 := by
  obtain ⟨k,hk,rfl⟩ := hx
  have hb := depth_frameBase hd
  rw [← ha] at hb
  have h8 : depth top (f.addr-8) = depth top f.addr + 8 := depth_sub (k := 8) (by omega)
  rw [depth_add (by omega),h8]
  omega

theorem depth_redZone (hd : depth top f.rsp + 191 < 0x10000000000000000) (hx : f.RedZone x) :
    depth top x ≤ depth top f.rsp + 128 := by
  obtain ⟨k,hk,rfl⟩ := hx
  have h128 : depth top (f.rsp-128) = depth top f.rsp + 128 := depth_sub (k := 128) (by omega)
  rw [depth_add (by omega),h128]
  omega

theorem Stacked.apart (h : Stacked top fs) : Apart fs := by
  induction fs with
  | nil => exact ⟨fun _ hf => (nomatch hf),.nil⟩
  | cons f fs ih =>
    obtain ⟨hred,hpair⟩ := ih h.2.2.2
    have hb := depth_frameBase h.2.1
    rw [← h.1] at hb
    refine ⟨fun g hg x hx hz => ?_,.cons (fun g hg x hx => ?_) hpair⟩
    · rcases mem_cons.mp hg with rfl | hg
      · have := depth_covers h.1 h.2.1 hx
        have := depth_redZone h.2.1 hz
        omega
      · exact hred g hg x hx hz
    · have hf := depth_covers h.1 h.2.1 hx
      have hout := h.outer hg
      obtain ⟨hga,hgd⟩ := h.2.2.2.mem hg
      have hgb := depth_frameBase hgd
      rw [← hga] at hgb
      constructor
      · intro hc
        have := depth_covers hga hgd hc
        omega
      · intro hz
        have := depth_redZone hgd hz
        omega

/-- A frame is kept by whatever keeps the stack at and above it. -/
theorem Holds.of_agree {mem mem' : BitVec 64 → Option (BitVec 32)} (h : Holds mem f)
    (hd : 40 ≤ depth top f.addr) (hag : ∀ x, depth top x ≤ depth top f.addr → mem' x = mem x) :
    Holds mem' f := by
  have hword : ∀ k : Nat, k ≤ 36 → depth top (f.addr + BitVec.ofNat 64 k) ≤ depth top f.addr := by
    intro k hk
    rw [depth_add (by omega)]
    omega
  have hget : ∀ k : Nat, k ≤ 32 →
      fetch mem' (f.addr + BitVec.ofNat 64 k) = fetch mem (f.addr + BitVec.ofNat 64 k) := by
    intro k hk
    refine fetch_congr (hag _ (hword k (by omega))) (hag _ ?_)
    have he : f.addr + BitVec.ofNat 64 k + 4 = f.addr + BitVec.ofNat 64 (k+4) := by
      rw [ofNat_add]
      bv_omega
    rw [he]
    exact hword (k+4) (by omega)
  have h0 := hget 0 (by omega)
  rw [BitVec.add_zero] at h0
  exact ⟨h0.trans h.rip,(hget 8 (by omega)).trans h.rflags,(hget 16 (by omega)).trans h.rsp,
    (hget 24 (by omega)).trans h.rax,(hget 32 (by omega)).trans h.mask⟩

/-- What a delivery writes lies below the stack pointer it finds. -/
theorem saveFrame_above {mem : BitVec 64 → Option (BitVec 32)} {r : Thread} {retVal : BitVec 64}
    (hd : depth top r.tmpRsp + 191 < 0x10000000000000000) (hx : depth top x ≤ depth top r.tmpRsp) :
    saveFrame mem r retVal x = mem x := by
  apply saveFrame_of_apart
  have hb := depth_frameBase hd
  have h8 : depth top (frameBase r.tmpRsp - 8) = depth top (frameBase r.tmpRsp) + 8 :=
    depth_sub (k := 8) (by omega)
  generalize frameBase r.tmpRsp - 8 = fr at h8 ⊢
  unfold depth at *
  bv_omega

end Stacked

/-- A trap of a handler: the world it finds, the signal fields as it has set them, and
what happens while the delivery on the way out has the thread stopped. -/
structure Entry where
  world : World
  cpu : Nat
  pending : BitVec 64
  mask : BitVec 64
  handlers : Nat → BitVec 64
  restorer : BitVec 64
  installed : restorer ≠ 0
  away : Nat → Stay

def Entry.enter (e : Entry) (r : Thread) (t : ThreadRef) (rip rflags rsp : BitVec 64) : State :=
  trap { r with sigPending := e.pending, sigMask := e.mask, sigHandlers := e.handlers
                sigRestorer := e.restorer } t e.world e.cpu rip rflags rsp

theorem Entry.enter_thread {e : Entry} {t : ThreadRef} {rip rflags rsp : BitVec 64} :
    (e.enter r t rip rflags rsp).sched.thread t = { r with
      state := .running, tmpRip := rip, tmpRflags := rflags, tmpRsp := rsp, sigPending := e.pending
      sigMask := e.mask, sigHandlers := e.handlers, sigRestorer := e.restorer } := trap_thread

theorem Entry.enter_runs {e : Entry} {t : ThreadRef} {rip rflags rsp : BitVec 64} :
    ((e.enter r t rip rflags rsp).sched.cpu e.cpu).current = some t ∧
      ∀ d, ((e.enter r t rip rflags rsp).sched.cpu d).idle.isSome := trap_runs

/-- A thread back in user mode, with the value its call returned and the frames whose
handlers have not returned, the innermost first. -/
structure Nest where
  m : State
  rax : BitVec 64
  frames : List Frame

/-- Back to user mode from the state `m`. A frame has been pushed if the stack pointer
has moved, and starts above the return address. -/
def back (t : ThreadRef) (frames : List Frame) (m : State) : Outcome → Option Nest
  | .returns rax m' => some
    { m := m', rax := rax
      frames := if (m'.sched.thread t).tmpRsp = (m.sched.thread t).tmpRsp then frames
        else { frameOf (m.sched.thread t) rax with addr := (m'.sched.thread t).tmpRsp+8 } :: frames }
  | .exits _ => none
  | .stops _ _ => none

def leave (t : ThreadRef) (frames : List Frame) (m : State) (cpu : Nat) (retVal : BitVec 64)
    (away : Nat → Stay) : Option Nest :=
  (deliver m cpu t retVal away).bind (back t frames m)

/-- A handler makes a system call, or returns to the restorer, which finds the stack
pointer just above the return address. -/
inductive Move where
  | syscall (e : Entry) (rip rflags rsp retVal : BitVec 64)
  | sigreturn (e : Entry) (rip rflags : BitVec 64)

namespace Nest

def step (t : ThreadRef) (a : Nest) : Move → Option Nest
  | .syscall e rip rflags rsp retVal =>
    match a.frames with
    | [] => none
    | _ :: _ => leave t a.frames (e.enter (a.m.sched.thread t) t rip rflags rsp) e.cpu retVal e.away
  | .sigreturn e rip rflags =>
    match a.frames with
    | [] => none
    | f :: fs => (sysRtSigreturn (e.enter (a.m.sched.thread t) t rip rflags f.addr) e.cpu).bind fun p =>
        leave t fs p.2 e.cpu p.1 e.away

/-- Memory from the innermost frame to the top of the stack is as the thread left it. -/
def Untouched (top : BitVec 64) (t : ThreadRef) (a : Nest) (e : Entry) : Prop :=
  ∀ f ∈ a.frames.head?, ∀ x, depth top x ≤ depth top f.addr →
    e.world.state.mem (a.m.sched.thread t).cr3 x = a.m.mem (a.m.sched.thread t).cr3 x

/-- Handlers leave memory at and above their own frame untouched and run on the stack
below it, which does not reach round the address space. -/
def Disciplined (top : BitVec 64) (t : ThreadRef) (a : Nest) : Move → Prop
  | .syscall e _ _ rsp _ => a.Untouched top t e ∧
      ∀ f ∈ a.frames.head?, depth top f.addr ≤ depth top rsp ∧ depth top rsp + 191 < 0x10000000000000000
  | .sigreturn e _ _ => a.Untouched top t e

/-- The frames are in memory, stacked below `top`, and the outermost one, or the thread
itself when there is none, has the context `f0`. -/
structure Sound (top : BitVec 64) (t : ThreadRef) (f0 : Frame) (a : Nest) : Prop where
  cr3 : (a.m.sched.thread t).cr3 ≠ 0
  held : ∀ f ∈ a.frames, Holds (a.m.mem (a.m.sched.thread t).cr3) f
  stacked : Stacked top a.frames
  bottom : (frameOf (a.m.sched.thread t) a.rax :: a.frames).getLast? = some f0

end Nest

section Leave

variable {top : BitVec 64} {t : ThreadRef} {f0 : Frame} {fs : List Frame} {m : State} {c : Nat}
  {retVal : BitVec 64} {away : Nat → Stay} {a : Nest}

theorem frameOf_context {r r' : Thread} (h : context r' = context r) (v : BitVec 64) :
    frameOf r' v = frameOf r v :=
  (congrArg (frameOf · v) h :)

/-- A delivery keeps the frames below which it is made, and adds at most its own. -/
theorem leave_sound (hcur : (m.sched.cpu c).current = some t)
    (hidle : ∀ d, (m.sched.cpu d).idle.isSome) (hr : (m.sched.thread t).sigRestorer ≠ 0)
    (hcr3 : (m.sched.thread t).cr3 ≠ 0)
    (held : ∀ f ∈ fs, Holds (m.mem (m.sched.thread t).cr3) f) (hst : Stacked top fs)
    (hhead : ∀ g ∈ fs.head?, depth top g.addr ≤ depth top (m.sched.thread t).tmpRsp)
    (hroom : depth top (m.sched.thread t).tmpRsp + 191 < 0x10000000000000000)
    (hbot : (frameOf (m.sched.thread t) retVal :: fs).getLast? = some f0)
    (h : leave t fs m c retVal away = some a) : Nest.Sound top t f0 a := by
  obtain ⟨o,ho,hback⟩ := bind_eq_some_iff.mp h
  have hpass := deliver_passed retVal away hcur hcr3 (hidle c) (fun s => hidle _)
  generalize sweep (action (m.sched.thread t).sigHandlers)
    (arrivals away (m.sched.thread t).sigMask) 31 1 (deliverable (m.sched.thread t)) = x at hpass
  generalize deliver m c t retVal away = o' at ho hpass
  cases hpass with
  | killed _ _ =>
    cases ho
    cases hback
  | @through Q m1 hctx hmem _ =>
    cases ho
    cases hback
    have hrsp := context_tmpRsp hctx
    have hc := context_cr3 hctx
    rw [if_pos hrsp]
    refine ⟨?_,?_,hst,?_⟩
    · rw [hc]
      exact hcr3
    · rw [hc,hmem]
      exact held
    · rw [frameOf_context hctx]
      exact hbot
  | @caught s m1 hctx hmem _ _ =>
    obtain ⟨m2,he,rfl⟩ := map_eq_some_iff.mp ho
    cases hback
    have hrsp := context_tmpRsp hctx
    have hc := context_cr3 hctx
    have hr1 : (m1.sched.thread t).sigRestorer = (m.sched.thread t).sigRestorer :=
      (congrArg Thread.sigRestorer hctx :)
    obtain ⟨_,hthread,hmem2⟩ := enterHandler_restorer he (hr1 ▸ hr)
    have hc2 : (m2.sched.thread t).cr3 = (m.sched.thread t).cr3 := by
      rw [hthread]
      exact hc
    have haddr : (m2.sched.thread t).tmpRsp+8 = frameBase (m.sched.thread t).tmpRsp := by
      rw [hthread,← hrsp]
      bv_omega
    have hmem3 : m2.mem (m.sched.thread t).cr3 =
        saveFrame (m.mem (m.sched.thread t).cr3) (m1.sched.thread t) retVal := by
      rw [hmem2,hc,update_self,hmem]
    rw [if_neg (fun e => enterHandler_rsp he (e.trans hrsp.symm)),haddr]
    change Nest.Sound top t f0 ⟨m2,retVal,frameOf (m.sched.thread t) retVal :: fs⟩
    refine ⟨by rw [hc2]; exact hcr3,?_,⟨rfl,hroom,hhead,hst⟩,?_⟩
    · rw [hc2,hmem3]
      intro f hf
      rcases mem_cons.mp hf with rfl | hf
      · rw [← frameOf_context hctx]
        exact saveFrame_holds _ _ _
      -- an older frame lies above the stack pointer
      have hle : depth top f.addr ≤ depth top (m.sched.thread t).tmpRsp :=
        Stacked.outer (f := frameOf (m.sched.thread t) retVal) ⟨rfl,hroom,hhead,hst⟩ hf
      rw [← hrsp] at hroom hle
      exact (held f hf).of_agree (hst.deep hf) fun x hx =>
        saveFrame_above hroom (le_trans hx hle)
    · rw [getLast?_cons_cons]
      exact hbot

end Leave

namespace Nest

variable {top : BitVec 64} {t : ThreadRef} {f0 : Frame} {a a' : Nest}

theorem Sound.step {e : Move} (h : Sound top t f0 a) (hg : Disciplined top t a e)
    (hs : step t a e = some a') : Sound top t f0 a' := by
  cases hfr : a.frames with
  | nil =>
    cases e <;> simp [Nest.step,hfr] at hs
  | cons f fs =>
    have hfirst : f ∈ a.frames.head? := by rw [hfr]; rfl
    have hstk := h.stacked
    have hheld := h.held
    have hbot := h.bottom
    rw [hfr] at hstk hheld hbot
    rw [getLast?_cons_cons] at hbot
    -- what the handler leaves of the frames
    have hkept : ∀ e : Entry, a.Untouched top t e → ∀ g ∈ f :: fs,
        Holds (e.world.state.mem (a.m.sched.thread t).cr3) g := by
      intro e hu g hg
      refine (hheld g hg).of_agree (hstk.deep hg) fun x hx => hu f hfirst x (le_trans hx ?_)
      rcases mem_cons.mp hg with rfl | hg
      · exact le_refl _
      · have hb := depth_frameBase hstk.2.1
        rw [← hstk.1] at hb
        have := hstk.outer hg
        omega
    cases e with
    | syscall e rip rflags rsp retVal =>
      obtain ⟨hu,hrsp⟩ := hg
      obtain ⟨hlow,hroom⟩ := hrsp f hfirst
      simp only [Nest.step,hfr] at hs
      refine leave_sound e.enter_runs.1 e.enter_runs.2 ?_ ?_ ?_ hstk ?_ ?_ ?_ hs
      · rw [Entry.enter_thread]
        exact e.installed
      · rw [Entry.enter_thread]
        exact h.cr3
      · rw [Entry.enter_thread]
        exact hkept e hu
      · rw [Entry.enter_thread]
        rintro g ⟨⟩
        exact hlow
      · rw [Entry.enter_thread]
        exact hroom
      · rw [getLast?_cons_cons]
        exact hbot
    | sigreturn e rip rflags =>
      simp only [Nest.step,hfr] at hs
      obtain ⟨⟨v,m'⟩,hret,hs⟩ := bind_eq_some_iff.mp hs
      obtain ⟨hcpu,hmem,rip',rflags',rsp',mask',hthread,h1,h2,h3,h4,h5⟩ :=
        sysRtSigreturn_spec e.enter_runs.1 hret
      rw [Entry.enter_thread] at hthread h1 h2 h3 h4 h5
      have hf := hkept e hg f (mem_cons_self ..)
      -- the words read back are those of the innermost frame
      obtain rfl := some.inj (h1.symm.trans hf.rip)
      obtain rfl := some.inj (h2.symm.trans hf.rflags)
      obtain rfl := some.inj (h3.symm.trans hf.rsp)
      obtain rfl := some.inj (h4.symm.trans hf.rax)
      obtain rfl := some.inj (h5.symm.trans hf.mask)
      have hframe : frameOf (m'.sched.thread t) f.rax = f := by
        rw [hthread,frameOf,← hstk.1]
      refine leave_sound ?_ ?_ ?_ ?_ ?_ hstk.2.2.2 ?_ ?_ ?_ hs
      · rw [hcpu]
        exact e.enter_runs.1
      · rw [hcpu]
        exact e.enter_runs.2
      · rw [hthread]
        exact e.installed
      · rw [hthread]
        exact h.cr3
      · rw [hthread,hmem]
        exact fun g hg' => hkept e hg g (mem_cons_of_mem _ hg')
      · rw [hthread]
        exact hstk.2.2.1
      · rw [hthread]
        exact hstk.2.1
      · rw [hframe]
        exact hbot

end Nest

/-- The live frames are apart, and once there is none the thread is where the first
delivery found it in `m`. -/
def Nest.Inverse (m : State) (t : ThreadRef) (retVal : BitVec 64) (b : Nest) : Prop :=
  Apart b.frames ∧ (b.frames = [] →
    (b.m.sched.thread t).tmpRip = (m.sched.thread t).tmpRip ∧
    (b.m.sched.thread t).tmpRsp = (m.sched.thread t).tmpRsp ∧
    (b.m.sched.thread t).tmpRflags = (m.sched.thread t).tmpRflags ∧ b.rax = retVal ∧
    (b.m.sched.thread t).sigMask = (m.sched.thread t).sigMask)

/-- Deliveries and returns are inverse: whatever handlers run inside each other, the
context of the first delivery is back when the last frame is gone, and live frames never
lie over each other or over the red zone of interrupted code. -/
theorem signal_frames_nest (t : ThreadRef) (m : State) (c : Nat) (retVal : BitVec 64)
    (away : Nat → Stay) (a : Nest) (es : List Move) (hcur : (m.sched.cpu c).current = some t)
    (hidle : ∀ d, (m.sched.cpu d).idle.isSome) (hcr3 : (m.sched.thread t).cr3 ≠ 0)
    (hr : (m.sched.thread t).sigRestorer ≠ 0) (hfirst : leave t [] m c retVal away = some a)
    (hg : Along (Nest.step t) (Nest.Disciplined (m.sched.thread t).tmpRsp t) a es) :
    Always (Nest.step t) (Nest.Inverse m t retVal) a es := by
  have hzero : depth (m.sched.thread t).tmpRsp (m.sched.thread t).tmpRsp = 0 := by
    simp [depth]
  have hsound : Nest.Sound (m.sched.thread t).tmpRsp t (frameOf (m.sched.thread t) retVal) a := by
    refine leave_sound hcur hidle hr hcr3 ?_ ?_ ?_ ?_ ?_ hfirst
    · exact fun _ h => (nomatch h)
    · trivial
    · exact fun _ h => (nomatch h)
    · rw [hzero]
      decide
    · rfl
  refine always_of_along (fun b (h : Nest.Sound _ t _ b) => ⟨h.stacked.apart,fun hnil => ?_⟩)
    (fun b e b' h hg hs => h.step hg hs) a es hsound hg
  have hb := h.bottom
  rw [hnil] at hb
  have he := some.inj hb
  exact ⟨(congrArg Frame.rip he :),(congrArg Frame.rsp he :),(congrArg Frame.rflags he :),
    (congrArg Frame.rax he :),(congrArg Frame.mask he :)⟩

/-- A process in a system call, with a caught signal pending. -/
def caughtPending : State where
  sched := {
    thread := update (fun _ => {}) (.heap 1)
      { cr3 := 1, state := .running, tmpRip := 0x401000, tmpRsp := 0x7000, tmpRflags := 0x202
        sigHandlers := fun _ => 0x402000, sigRestorer := 0x403000, sigPending := sigBit 10 }
    cpu := fun c => { current := some (.heap 1), idle := some (.idle c) } }
  mem := fun _ _ => some 0

def firstNest : Nest := (leave (.heap 1) [] caughtPending 0 5 continued).getD ⟨caughtPending,0,[]⟩

/-- The next trap finds memory as the thread left it, and `pending` signals. -/
def nextEntry (a : Nest) (pending : BitVec 64) : Entry where
  world := ⟨{ caughtPending with mem := a.m.mem },fun _ => rfl⟩
  cpu := 0
  pending := pending
  mask := (a.m.sched.thread (.heap 1)).sigMask
  handlers := fun _ => 0x402000
  restorer := 0x403000
  installed := by decide
  away := continued

theorem nextEntry_untouched (top : BitVec 64) (a : Nest) (pending : BitVec 64) :
    a.Untouched top (.heap 1) (nextEntry a pending) := fun _ _ _ _ => rfl

/-- The handler makes a call at which a second signal is delivered. -/
def secondSignal : Move := .syscall (nextEntry firstNest (sigBit 12)) 0x402010 0x202 0x6f00 0

def innerNest : Nest := (Nest.step (.heap 1) firstNest secondSignal).getD firstNest

def innerReturn : Move := .sigreturn (nextEntry innerNest 0) 0x403000 0x202

def outerNest : Nest := (Nest.step (.heap 1) innerNest innerReturn).getD innerNest

def outerReturn : Move := .sigreturn (nextEntry outerNest 0) 0x403000 0x202

theorem signal_frames_nest_twice :
    Always (Nest.step (.heap 1)) (Nest.Inverse caughtPending (.heap 1) 5) firstNest
      [secondSignal,innerReturn,outerReturn] ∧ innerNest.frames.length = 2 := by
  refine ⟨signal_frames_nest (.heap 1) caughtPending 0 5 continued firstNest _ rfl (fun _ => rfl)
    (by decide) (by decide) rfl ⟨⟨nextEntry_untouched _ _ _,?_⟩,fun a ha => ?_⟩,rfl⟩
  · rintro f ⟨⟩
    decide
  · obtain rfl : innerNest = a := by
      rw [innerNest,ha]
      rfl
    refine ⟨nextEntry_untouched _ _ _,fun b hb => ?_⟩
    obtain rfl : outerNest = b := by
      rw [outerNest,hb]
      rfl
    exact ⟨nextEntry_untouched _ _ _,fun _ _ => trivial⟩

end Lariat.Kernel.Signal
