import FirstOs.Library.X86
import Mathlib.Data.List.Basic

/-!
# Interrupt stubs

The code of `idt_s.asm` and `syscall_handler_s.asm`. A stub makes the processor's words, an error
code and the vector into the end of a `struct int_regs`, pushes the rest of it and calls a handler
in C with its address. The stubs of vectors without an error code push 0 in its place.

The processor pushes an error code for vector 17 as well, and `isr17` pushes one more. The words of
that vector are one off, and `iret` takes the error code for `eip`.

## Main definitions

- `Stub.code` — the stubs
- `Agrees` — the handler sees the interrupted state, which then goes on

## Main results

- `agrees_iff` — when they agree
-/

namespace FirstOs

open X86

-- ════════════════════════════════════════════════════════════════════════
-- The code
-- ════════════════════════════════════════════════════════════════════════

/-- The functions in C that are called. -/
inductive Handler where
  | isrHandler
  | irqHandler
  | syscallHandler
deriving DecidableEq

/-- `struct int_regs`. -/
structure IntRegs where
  cr2 : BitVec 32
  ds : BitVec 32
  edi : BitVec 32
  esi : BitVec 32
  ebp : BitVec 32
  esp : BitVec 32
  ebx : BitVec 32
  edx : BitVec 32
  ecx : BitVec 32
  eax : BitVec 32
  intNo : BitVec 32
  errCode : BitVec 32
  eip : BitVec 32
  csm : BitVec 32
  eflags : BitVec 32
  useresp : BitVec 32
  ss : BitVec 32

/-- The record at an address. -/
def readIntRegs (m : Memory) (a : BitVec 32) : IntRegs where
  cr2 := load m a
  ds := load m (a + 4)
  edi := load m (a + 8)
  esi := load m (a + 12)
  ebp := load m (a + 16)
  esp := load m (a + 20)
  ebx := load m (a + 24)
  edx := load m (a + 28)
  ecx := load m (a + 32)
  eax := load m (a + 36)
  intNo := load m (a + 40)
  errCode := load m (a + 44)
  eip := load m (a + 48)
  csm := load m (a + 52)
  eflags := load m (a + 56)
  useresp := load m (a + 60)
  ss := load m (a + 64)

/-- What comes before the call in the common stubs. -/
def saveRegs : List (Instr Handler) :=
  [.pusha, .readSeg .eax .ds, .push .eax, .readCr2 .eax, .push .eax,
    .movLow .eax 0x10, .writeSeg .ds .eax, .writeSeg .es .eax, .writeSeg .fs .eax,
    .writeSeg .gs .eax, .push .esp]

/-- What comes after it. -/
def restoreRegs : List (Instr Handler) :=
  [.addImm .esp 8, .pop .ebx, .writeSeg .ds .ebx, .writeSeg .es .ebx, .writeSeg .fs .ebx,
    .writeSeg .gs .ebx, .popa, .addImm .esp 8, .sti, .iret]

/-- The common stubs; `ret` is the address behind the call. -/
def commonStub (handler : Handler) (ret : BitVec 32) : List (Instr Handler) :=
  saveRegs ++ .call handler ret :: restoreRegs

/-- `isr_common_stub`. -/
def isrCommonStub := commonStub .isrHandler

/-- `irq_common_stub`. -/
def irqCommonStub := commonStub .irqHandler

/-- `ISR_NOERRCODE`. -/
def isrNoerrcode (n : BitVec 32) (ret : BitVec 32) : List (Instr Handler) :=
  [.cli, .pushImm 0, .pushImm n] ++ isrCommonStub ret

/-- `ISR_ERRCODE`. -/
def isrErrcode (n : BitVec 32) (ret : BitVec 32) : List (Instr Handler) :=
  [.cli, .pushImm n] ++ isrCommonStub ret

/-- `IRQ`, with its second argument. -/
def irqStub (n : BitVec 32) (ret : BitVec 32) : List (Instr Handler) :=
  [.cli, .pushImm 0, .pushImm n] ++ irqCommonStub ret

/-- `syscall_common_stub`. -/
def syscallCommonStub (ret : BitVec 32) : List (Instr Handler) :=
  [.cli, .pushImm 0, .pushImm 0x80] ++ commonStub .syscallHandler ret

/-- The stubs. -/
inductive Stub where
  | isr (n : Fin 32)
  | irq (n : Fin 16)
  | syscall

namespace Stub

/-- The gate of a stub in `idt_init`. -/
def vector : Stub → ℕ
  | isr n => n
  | irq n => 32 + n
  | syscall => 0x80

def handler : Stub → Handler
  | isr _ => .isrHandler
  | irq _ => .irqHandler
  | syscall => .syscallHandler

/-- Which macro makes which stub. -/
def code : Stub → BitVec 32 → List (Instr Handler)
  | isr n =>
    if n.val ∈ [8, 10, 11, 12, 13, 14] then isrErrcode (BitVec.ofNat 32 n)
    else isrNoerrcode (BitVec.ofNat 32 n)
  | irq n => irqStub (BitVec.ofNat 32 (32 + n))
  | syscall => syscallCommonStub

/-- The error code the processor pushes. -/
def error (stub : Stub) (e : BitVec 32) : Option (BitVec 32) :=
  if stub.vector ∈ [8, 10, 11, 12, 13, 14, 17] then some e else none

/-- The state in which the first instruction of a stub at `offset` runs. The gates select 8. -/
def entered (stub : Stub) (offset e : BitVec 32) (s : State) : State :=
  interrupt 0x08 offset (stub.error e) s

end Stub

-- ════════════════════════════════════════════════════════════════════════
-- Agreement
-- ════════════════════════════════════════════════════════════════════════

/-- The record shows the interrupted state. -/
structure ShowsState (r : IntRegs) (stub : Stub) (e : BitVec 32) (s : State) : Prop where
  cr2 : r.cr2 = s.cpu.cr2
  ds : r.ds = s.cpu.ds.setWidth 32
  edi : r.edi = s.cpu.edi
  esi : r.esi = s.cpu.esi
  ebp : r.ebp = s.cpu.ebp
  ebx : r.ebx = s.cpu.ebx
  edx : r.edx = s.cpu.edx
  ecx : r.ecx = s.cpu.ecx
  eax : r.eax = s.cpu.eax
  intNo : r.intNo = BitVec.ofNat 32 stub.vector
  errCode : r.errCode = (stub.error e).getD 0
  eip : r.eip = s.cpu.eip
  csm : r.csm = s.cpu.cs.setWidth 32
  eflags : r.eflags = s.cpu.eflags

/-- The argument a handler is called with: the address of the record. -/
def argument (t : State) : BitVec 32 := load t.mem (t.cpu.esp + 4)

/-- A handler entered with `t` returns with `u`, and has changed `eax` of the record only. -/
structure ChangedEax (t u : State) : Prop where
  esp : u.cpu.esp = t.cpu.esp + 4
  ss : u.cpu.ss = t.cpu.ss
  record : readIntRegs u.mem (argument t) = { readIntRegs t.mem (argument t) with
    eax := (readIntRegs u.mem (argument t)).eax }

/-- The interrupted code goes on, with this `eax`. -/
structure GoesOn (s u : State) (eax : BitVec 32) : Prop where
  eip : u.cpu.eip = s.cpu.eip
  esp : u.cpu.esp = s.cpu.esp
  eflags : u.cpu.eflags = s.cpu.eflags
  segments : u.cpu.cs = s.cpu.cs ∧ u.cpu.ss = s.cpu.ss ∧ u.cpu.ds = s.cpu.ds ∧
    u.cpu.es = s.cpu.es ∧ u.cpu.fs = s.cpu.fs ∧ u.cpu.gs = s.cpu.gs
  eax : u.cpu.eax = eax
  general : u.cpu.ecx = s.cpu.ecx ∧ u.cpu.edx = s.cpu.edx ∧ u.cpu.ebx = s.cpu.ebx ∧
    u.cpu.ebp = s.cpu.ebp ∧ u.cpu.esi = s.cpu.esi ∧ u.cpu.edi = s.cpu.edi

/-- Entry and exit agree with `struct int_regs`, whatever the handlers do. -/
structure Agrees (stub : Stub) (offset ret e : BitVec 32) (s : State) : Prop where
  entry : ∀ env, ∃ t, firstCall env (stub.code ret) (stub.entered offset e s) =
    some (stub.handler, t) ∧ ShowsState (readIntRegs t.mem (argument t)) stub e s
  exit : ∀ env f t, firstCall env (stub.code ret) (stub.entered offset e s) = some (f, t) →
    ChangedEax t (env f t) →
    GoesOn s (exec env (stub.code ret) (stub.entered offset e s))
      (readIntRegs (env f t).mem (argument t)).eax

-- ════════════════════════════════════════════════════════════════════════
-- Entry
-- ════════════════════════════════════════════════════════════════════════

/-- The fields up to `eflags`, in order. -/
def IntRegs.words (r : IntRegs) : List (BitVec 32) :=
  [r.cr2, r.ds, r.edi, r.esi, r.ebp, r.esp, r.ebx, r.edx, r.ecx, r.eax, r.intNo, r.errCode, r.eip,
    r.csm, r.eflags]

section Entry

variable {env : Handler → State → State} {f : Handler} {ret n e w₁ w₂ w₃ : BitVec 32}
  {s t u : State} {c : Cpu} {rest ws : List (BitVec 32)} {m : Memory} {a : BitVec 32}

/-- The words of a record are the ones at its address. -/
theorem holds_words_readIntRegs (m : Memory) (a : BitVec 32) :
    Holds m a (readIntRegs m a).words := by
  simp [IntRegs.words, readIntRegs, Holds, BitVec.add_assoc]

/-- The words from the record on, when a stub has put these registers above what it was given. -/
def savedWords (c : Cpu) : List (BitVec 32) :=
  [c.cr2, c.ds.setWidth 32, c.edi, c.esi, c.ebp, c.esp, c.ebx, c.edx, c.ecx, c.eax]

/-- What `saveRegs` leaves on the stack. -/
theorem exec_saveRegs (c : Cpu) (ws : List (BitVec 32)) :
    ∃ a, StackState.exec saveRegs ⟨c, ws⟩ = some a ∧ a.cpu.esp = c.esp - 44 ∧ a.cpu.ss = c.ss ∧
      a.stack = (c.esp - 40) :: savedWords c ++ ws := by
  simp [saveRegs, savedWords]
  bv_omega

/-- What `restoreRegs` makes of the words of a record. -/
theorem exec_restoreRegs (c : Cpu) (w : BitVec 32) (r : IntRegs) :
    StackState.exec restoreRegs ⟨c, w :: r.words⟩ = some
      ⟨{ eax := r.eax, ecx := r.ecx, edx := r.edx, ebx := r.ebx, esp := c.esp + 64, ebp := r.ebp
         esi := r.esi, edi := r.edi, cs := r.csm.setWidth 16, ss := c.ss
         ds := r.ds.setWidth 16, es := r.ds.setWidth 16, fs := r.ds.setWidth 16
         gs := r.ds.setWidth 16, eip := r.eip, eflags := r.eflags, cr2 := c.cr2 }, []⟩ := by
  simp [restoreRegs, IntRegs.words]
  bv_omega

/-- A common stub calls its handler with the address of a record that has the registers, and then
    the words it was entered with. -/
theorem commonStub_call (env : Handler → State → State) (f : Handler) (ret : BitVec 32)
    {pre : List (Instr Handler)} {a₀ : StackState} (h : Refines s a₀)
    (hlen : a₀.stack.length ≤ 4) (hpre : pre.length ≤ 3) (hrest : rest.length ≤ 1)
    (hexec : a₀.exec pre = some ⟨c, n :: e :: w₁ :: w₂ :: w₃ :: rest⟩) :
    ∃ t, firstCall env (pre ++ commonStub f ret) s = some (f, t) ∧
      exec env (pre ++ commonStub f ret) s = exec env restoreRegs (env f t) ∧
      t.cpu.esp = c.esp - 48 ∧ t.cpu.ss = c.ss ∧ argument t = c.esp - 40 ∧
      (readIntRegs t.mem (argument t)).words = savedWords c ++ [n, e, w₁, w₂, w₃] := by
  obtain ⟨a, hsave, hesp, hss, hstack⟩ := exec_saveRegs c (n :: e :: w₁ :: w₂ :: w₃ :: rest)
  have hall : a₀.exec (pre ++ saveRegs) = some a := by
    rw [StackState.exec_append, hexec, Option.bind_some, hsave]
  have hlength : (pre ++ saveRegs).length = pre.length + 11 := List.length_append
  have hsaved := h.exec env (by omega) hall
  have hfew : a.stack.length < 2 ^ 30 := by
    rw [hstack]
    simp [savedWords]
    omega
  have hcalled := hsaved.push (w := ret) hfew
  have hsplit : pre ++ commonStub f ret = (pre ++ saveRegs) ++ .call f ret :: restoreRegs :=
    (List.append_assoc ..).symm
  have htop : ((exec env (pre ++ saveRegs) s).push ret).cpu.esp = c.esp - 48 := by
    change (exec env (pre ++ saveRegs) s).cpu.esp - 4 = c.esp - 48
    rw [hsaved.cpu, hesp]
    bv_omega
  have hwords := hcalled.stack
  rw [htop] at hwords
  change Holds _ _ (ret :: a.stack) at hwords
  rw [hstack] at hwords
  obtain ⟨-, hargument, hwords⟩ := hwords
  have harg : argument ((exec env (pre ++ saveRegs) s).push ret) = c.esp - 40 := by
    rw [argument, htop]
    exact hargument
  have hnext : c.esp - 48 + 4 + 4 = c.esp - 40 := by
    bv_omega
  refine ⟨(exec env (pre ++ saveRegs) s).push ret, ?_, ?_, htop, ?_, harg, ?_⟩
  · rw [hsplit]
    exact firstCall_append h (by omega) hall
  · rw [hsplit, exec_append, exec_call]
  · change (exec env (pre ++ saveRegs) s).cpu.ss = c.ss
    rw [hsaved.cpu, hss]
  · rw [harg]
    refine (holds_words_readIntRegs _ _).unique ?_ rfl
    rw [hnext] at hwords
    have hsplit : Holds _ _ ((savedWords c ++ [n, e, w₁, w₂, w₃]) ++ rest) := hwords
    exact hsplit.append_left

/-- It returns to the words it was entered with, when the handler has changed `eax` only. -/
theorem restoreRegs_return (env : Handler → State → State) (hesp : t.cpu.esp = c.esp - 48)
    (hss : t.cpu.ss = c.ss)
    (harg : argument t = c.esp - 40)
    (hwords : (readIntRegs t.mem (argument t)).words = savedWords c ++ [n, e, w₁, w₂, w₃])
    (h : ChangedEax t u) :
    (exec env restoreRegs u).cpu =
      { c with
        eax := (readIntRegs u.mem (argument t)).eax
        esp := c.esp + 20
        cs := w₂.setWidth 16
        es := c.ds
        fs := c.ds
        gs := c.ds
        eip := w₁
        eflags := w₃
        cr2 := u.cpu.cr2 } := by
  have hrecord := h.record
  have hholds := holds_words_readIntRegs u.mem (argument t)
  generalize readIntRegs u.mem (argument t) = r at *
  have hnext : u.cpu.esp + 4 = argument t := by
    rw [h.esp, hesp, harg]
    bv_omega
  have hstart : Refines u ⟨u.cpu, load u.mem u.cpu.esp :: r.words⟩ := by
    refine ⟨rfl, rfl, ?_⟩
    rw [hnext]
    exact hholds
  have hshort : (load u.mem u.cpu.esp :: r.words).length + 8 * restoreRegs.length ≤ 2 ^ 30 := by
    simp [IntRegs.words, restoreRegs]
  have hlast : u.cpu.esp + 64 = c.esp + 20 := by
    rw [h.esp, hesp]
    bv_omega
  have hdone := (hstart.exec env hshort (exec_restoreRegs u.cpu _ r)).cpu
  rw [hdone, hlast, h.ss, hss]
  simp only [IntRegs.words, savedWords, List.cons_append, List.nil_append, List.cons.injEq,
    and_true] at hwords
  rw [hrecord]
  simp [hwords]

end Entry

-- ════════════════════════════════════════════════════════════════════════
-- The stubs
-- ════════════════════════════════════════════════════════════════════════

namespace Stub

/-- What a stub does before its common stub. -/
def prelude (stub : Stub) : List (Instr Handler) :=
  if stub.vector ∈ [8, 10, 11, 12, 13, 14] then [.cli, .pushImm (BitVec.ofNat 32 stub.vector)]
  else [.cli, .pushImm 0, .pushImm (BitVec.ofNat 32 stub.vector)]

theorem code_eq (stub : Stub) (ret : BitVec 32) :
    stub.code ret = stub.prelude ++ commonStub stub.handler ret := by
  cases stub with
  | isr n =>
    rw [code, prelude, vector]
    split_ifs <;> rfl
  | irq n =>
    have hv : ¬ (32 + n.val) ∈ [8, 10, 11, 12, 13, 14] := by
      simp
      omega
    rw [prelude, vector, if_neg hv]
    rfl
  | syscall => rfl

section Words

variable {stub : Stub} {offset ret e : BitVec 32} {s : State} {env : Handler → State → State}

/-- Before the common stub there are five words, except for vector 17. -/
theorem exec_prelude (offset e : BitVec 32) (s : State) (h : stub.vector ≠ 17) :
    ∃ a₀ flags, Refines (stub.entered offset e s) a₀ ∧
    a₀.stack.length ≤ 4 ∧ a₀.exec stub.prelude = some
      ⟨{ s.cpu with esp := s.cpu.esp - 20, cs := 8, eip := offset, eflags := flags },
        [BitVec.ofNat 32 stub.vector, (stub.error e).getD 0, s.cpu.eip, s.cpu.cs.setWidth 32,
          s.cpu.eflags]⟩ := by
  have hentered : Refines (stub.entered offset e s) _ :=
    refines_interrupt 8 offset (stub.error e) s
  by_cases hv : stub.vector ∈ [8, 10, 11, 12, 13, 14]
  · have herror : stub.error e = some e := by
      rw [error, if_pos]
      simp at hv ⊢
      omega
    rw [herror] at hentered
    rw [herror]
    refine ⟨_, s.cpu.eflags &&& ~~~0x34300#32 &&& ~~~0x200#32, hentered, by simp, ?_⟩
    rw [prelude, if_pos hv]
    simp
    bv_omega
  · have herror : stub.error e = none := by
      rw [error, if_neg]
      simp at hv ⊢
      omega
    rw [herror] at hentered
    rw [herror]
    refine ⟨_, s.cpu.eflags &&& ~~~0x34300#32 &&& ~~~0x200#32, hentered, by simp, ?_⟩
    rw [prelude, if_neg hv]
    simp
    bv_omega

/-- For vector 17 there are six. -/
theorem exec_prelude_17 (offset e : BitVec 32) (s : State) (h : stub.vector = 17) :
    ∃ a₀ flags, Refines (stub.entered offset e s) a₀ ∧
    a₀.stack.length ≤ 4 ∧ a₀.exec stub.prelude = some
      ⟨{ s.cpu with esp := s.cpu.esp - 24, cs := 8, eip := offset, eflags := flags },
        [17, 0, e, s.cpu.eip, s.cpu.cs.setWidth 32, s.cpu.eflags]⟩ := by
  have hentered : Refines (stub.entered offset e s) _ :=
    refines_interrupt 8 offset (stub.error e) s
  have herror : stub.error e = some e := by
    rw [error, if_pos]
    simp [h]
  rw [herror] at hentered
  refine ⟨_, s.cpu.eflags &&& ~~~0x34300#32 &&& ~~~0x200#32, hentered, by simp, ?_⟩
  rw [prelude, h, if_neg (by decide)]
  simp
  bv_omega

/-- Vectors other than 17 agree with the record. -/
theorem agrees_of_ne (hseg : s.cpu.es = s.cpu.ds ∧ s.cpu.fs = s.cpu.ds ∧ s.cpu.gs = s.cpu.ds)
    (h : stub.vector ≠ 17) : Agrees stub offset ret e s := by
  obtain ⟨a₀, flags, hentered, hlen, hexec⟩ := exec_prelude offset e s h
  have hpre : stub.prelude.length ≤ 3 := by
    rw [prelude]
    split_ifs <;> simp
  have hcall := fun env => commonStub_call env stub.handler ret hentered hlen
    hpre (by simp) hexec
  constructor
  · intro env
    obtain ⟨t, hfirst, -, -, -, -, hwords⟩ := hcall env
    refine ⟨t, by rw [code_eq]; exact hfirst, ?_⟩
    simp only [IntRegs.words, savedWords, List.cons_append, List.nil_append, List.cons.injEq,
      and_true] at hwords
    constructor <;> simp only [hwords]
  · intro env f t hfirst hchanged
    obtain ⟨t', hfirst', hrun, hesp, hss, harg, hwords⟩ := hcall env
    rw [code_eq, hfirst'] at hfirst
    obtain ⟨rfl, rfl⟩ := Prod.mk.inj (Option.some.inj hfirst)
    have hcpu := restoreRegs_return env hesp hss harg hwords hchanged
    rw [code_eq, hrun]
    obtain ⟨hes, hfs, hgs⟩ := hseg
    constructor <;> simp [hcpu, hes, hfs, hgs]

/-- A handler that returns and changes nothing. -/
def returnOnly (t : State) : State := { t with cpu := { t.cpu with esp := t.cpu.esp + 4 } }

/-- Vector 17 does not: `esp` is one word off after `iret`. -/
theorem not_agrees_of_eq (h : stub.vector = 17) : ¬ Agrees stub offset ret e s := by
  obtain ⟨a₀, flags, hentered, hlen, hexec⟩ := exec_prelude_17 offset e s h
  have hpre : stub.prelude.length ≤ 3 := by
    rw [prelude]
    split_ifs <;> simp
  intro hagrees
  obtain ⟨t, hfirst, hrun, hesp, hss, harg, hwords⟩ := commonStub_call
    (fun _ => returnOnly) stub.handler ret hentered hlen hpre (by simp) hexec
  have hchanged : ChangedEax t (returnOnly t) := ⟨rfl, rfl, rfl⟩
  have hcpu := restoreRegs_return (fun _ => returnOnly) hesp hss harg hwords hchanged
  rw [← code_eq] at hfirst hrun
  have hend := (hagrees.exit _ _ t hfirst hchanged).esp
  rw [hrun, hcpu] at hend
  change s.cpu.esp - 24 + 20 = s.cpu.esp at hend
  bv_omega

end Words

end Stub

/-- Entry and exit agree with `struct int_regs` for every vector but 17. -/
theorem agrees_iff (stub : Stub) (offset ret e : BitVec 32) (s : State)
    (hseg : s.cpu.es = s.cpu.ds ∧ s.cpu.fs = s.cpu.ds ∧ s.cpu.gs = s.cpu.ds) :
    Agrees stub offset ret e s ↔ stub.vector ≠ 17 := by
  constructor
  · exact fun h hv => Stub.not_agrees_of_eq hv h
  · exact Stub.agrees_of_ne hseg

/-- The kernel in the middle of something. -/
def kernelState : State where
  cpu := ⟨1, 2, 3, 4, 0xC0108000, 5, 6, 7, 8, 0x10, 0x10, 0x10, 0x10, 0x10, 0xC0101234, 0x202, 0⟩
  mem _ := 0

theorem agrees_iff_kernelState : Agrees .syscall 0xC0100000 0xC0100040 0 kernelState :=
  (agrees_iff .syscall 0xC0100000 0xC0100040 0 kernelState ⟨rfl, rfl, rfl⟩).mpr (by decide)

theorem not_agrees : ¬ Agrees (.isr 17) 0xC0100000 0xC0100040 0 kernelState :=
  Stub.not_agrees_of_eq rfl

end FirstOs
