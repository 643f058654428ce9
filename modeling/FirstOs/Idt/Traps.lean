import FirstOs.Console.Tabs
import FirstOs.Idt.Stubs
import Mathlib.Data.List.TakeWhile

/-!
# System calls and exceptions

`isr_handler` of `idt.c`, `syscall_handler` and the functions of `ivt.c`, behind their stubs. The
functions of `ivt.c` print their names. No result of theirs is used, so that `eax` still has the
number of the call when it returns. A number that is not in the list makes it -1. `isr_handler`
prints the name of the exception and loops.

What the compiler makes of `syscall_handler` is not given. Where it is called as the stub calls it,
with the console on the screen and the stack apart from the console, it returns to its caller,
leaves the record and the console as the C code does, and may change the registers, some words below
its stack pointer and the words of its return address and its argument.

`Service` is what the kernel looks like to the code that is interrupted: a system call is one step,
in which the text grows and `eax` changes.

## Main definitions

- `syscallHandler`, `isrHandler` — the handlers
- `Linked`, `Compiled` — what is compiled, and what is assumed of it
- `Traps`, `TrapEvent.act` — the machine with the handlers
- `Service`, `TrapEvent.serve` — what it is to the interrupted code

## Main results

- `syscallHandler_eq`, `isrHandler_eq` — the handlers in one line each
- `serves_act` — one event
- `serves_of_run` — any code, system calls and exceptions
-/

namespace FirstOs

open X86

-- ════════════════════════════════════════════════════════════════════════
-- The handlers
-- ════════════════════════════════════════════════════════════════════════

/-- The bytes of a text. -/
def ascii (text : String) : List (BitVec 8) := text.toList.map fun c => BitVec.ofNat 8 c.toNat

def scOpen (_path _flags : BitVec 32) : Vga → Option Vga := vgaPrint (ascii "open syscall\n")

def scClose (_fd : BitVec 32) : Vga → Option Vga := vgaPrint (ascii "close syscall\n")

def scRead (_fd _buffer _count : BitVec 32) : Vga → Option Vga := vgaPrint (ascii "read syscall\n")

def scWrite (_fd _buffer _count : BitVec 32) : Vga → Option Vga :=
  vgaPrint (ascii "write syscall\n")

def scLseek (_fd _offset _from : BitVec 32) : Vga → Option Vga :=
  vgaPrint (ascii "lseek syscall\n")

def scStat (_path _statStructAddress : BitVec 32) : Vga → Option Vga :=
  vgaPrint (ascii "stat syscall\n")

def scFork : Vga → Option Vga := vgaPrint (ascii "fork syscall\n")

def scExecve (_elfFileName _argsArray _envp : BitVec 32) : Vga → Option Vga :=
  vgaPrint (ascii "execve syscall\n")

def scWait (_statusVarAddress : BitVec 32) : Vga → Option Vga := vgaPrint (ascii "wait syscall\n")

def scKill (_pid _signal : BitVec 32) : Vga → Option Vga := vgaPrint (ascii "kill syscall\n")

def scGetppid : Vga → Option Vga := vgaPrint (ascii "getppid syscall\n")

def scGetpid : Vga → Option Vga := vgaPrint (ascii "getpid syscall\n")

/-- `syscall_handler`: the record and the console afterwards. -/
def syscallHandler (regs : IntRegs) (vga : Vga) : Option (IntRegs × Vga) :=
  let kept (vga : Vga) := (regs, vga)
  match regs.eax.toNat with
  | 1 => (scWait regs.ebx vga).map kept
  | 2 => (scFork vga).map kept
  | 3 => (scRead regs.ebx regs.ecx regs.edx vga).map kept
  | 4 => (scWrite regs.ebx regs.ecx regs.edx vga).map kept
  | 5 => (scOpen regs.ebx regs.ecx vga).map kept
  | 6 => (scClose regs.ebx vga).map kept
  | 11 => (scExecve regs.ebx regs.ecx regs.edx vga).map kept
  | 19 => (scLseek regs.ebx regs.ecx regs.edx vga).map kept
  | 20 => (scGetpid vga).map kept
  | 37 => (scKill regs.ebx regs.ecx vga).map kept
  | 39 => (scGetppid vga).map kept
  | 195 => (scStat regs.ebx regs.ecx vga).map kept
  | _ => (vgaPrint (ascii "Unknown Syscall\n") vga).map fun vga => ({ regs with eax := -1 }, vga)

/-- `exception_msgs`. -/
def exceptionMsgs : List String :=
  ["Division By Zero", "Debug", "Non Maskeble Interrupt", "Breakpoint", "Into Detected Overflow",
    "Out Of Bounds", "Invalid Opcode", "No Coprocessor", "Double Fault",
    "Coprocessor Segment Overrun", "Bad TSS", "Segment Not Present", "Stack Fault",
    "General Protection Fault", "Page Fault", "Unknown Interrupt", "Coprocessor Fault",
    "Allignment Fault", "Machine Check"] ++ List.replicate 13 "Reserved"

/-- `isr_handler`: the console afterwards, and whether the handler loops. -/
def isrHandler (regs : IntRegs) (vga : Vga) : Option (Vga × Bool) :=
  if regs.intNo < 32 then
    (vgaPrint (ascii "\nException! System Halted!\n") vga).bind fun vga =>
      (vgaPrint (ascii (exceptionMsgs.getD regs.intNo.toNat "")) vga).map fun vga => (vga, true)
  else some (vga, false)

-- ════════════════════════════════════════════════════════════════════════
-- The machine
-- ════════════════════════════════════════════════════════════════════════

/-- What the linker and the compiler make: the addresses of the stubs and of the instructions behind
    their calls, what the compiled handlers do to the machine, the addresses they use beside the
    stack (the variables of `vga.c`, the text buffer and the row before it that scrolling writes,
    and their own code and texts), and the bytes there when the console is in some state. -/
structure Linked where
  offset : Stub → BitVec 32
  ret : Stub → BitVec 32
  env : Handler → State → State
  console : BitVec 32 → Bool
  draw : Vga → Memory

/-- The memory with this console in it. -/
def Linked.overlay (l : Linked) (vga : Vga) (m : Memory) : Memory :=
  fun x => if l.console x then l.draw vga x else m x

/-- The words a system call uses below this stack pointer, and the two above that `struct int_regs`
    also has, are apart from the console. -/
def Linked.StackApart (l : Linked) (depth : ℕ) (esp : BitVec 32) : Prop :=
  ∀ x, l.console x = true → Clear (esp + 8) (19 + depth) x

/-- The stub of the system calls has called the handler, with this console. -/
structure Called (l : Linked) (depth : ℕ) (t : State) (vga : Vga) : Prop where
  argument : argument t = t.cpu.esp + 8
  stack : l.StackApart depth (t.cpu.esp + 68)
  drawn : ∀ x, l.console x = true → t.mem x = l.draw vga x
  screen : vga.row < 25 ∧ vga.column ≤ 80

/-- The compiled handler, called with `t`, has returned with `u`: the record and the console are as
    the C code leaves them. -/
structure Returned (l : Linked) (depth : ℕ) (t u : State) (regs : IntRegs) (vga : Vga) : Prop where
  esp : u.cpu.esp = t.cpu.esp + 4
  ss : u.cpu.ss = t.cpu.ss
  record : readIntRegs u.mem (argument t) = regs
  drawn : ∀ x, l.console x = true → u.mem x = l.draw vga x
  frame : ∀ x, l.console x = false → Clear t.cpu.esp depth x → 8 ≤ (x - t.cpu.esp).toNat →
    4 ≤ (x - (argument t + 36)).toNat → u.mem x = t.mem x

/-- The compiled `syscall_handler` does what the C code does, with at most `depth` words below its
    stack pointer. -/
def Compiled (l : Linked) (depth : ℕ) : Prop :=
  ∀ t vga regs vga', Called l depth t vga →
    syscallHandler (readIntRegs t.mem (argument t)) vga = some (regs, vga') →
      Returned l depth t (l.env .syscallHandler t) regs vga'

/-- The machine and the console, and whether `isr_handler` loops. -/
structure Traps where
  state : State
  vga : Vga
  halted : Bool

/-- Code that leaves the machine like this and prints a text, a system call, or an exception. -/
inductive TrapEvent where
  | code (s : State) (text : List (BitVec 8))
  | syscall
  | exception (n : Fin 32) (error : BitVec 32)

/-- What the kernel is to the code that is interrupted: its registers, its memory, and the text
    that has been printed. -/
structure Service where
  cpu : Cpu
  mem : Memory
  text : List (BitVec 8)
  halted : Bool

namespace Service

/-- The system calls by number. -/
def calls : List (ℕ × String) :=
  [(1, "wait"), (2, "fork"), (3, "read"), (4, "write"), (5, "open"), (6, "close"), (11, "execve"),
    (19, "lseek"), (20, "getpid"), (37, "kill"), (39, "getppid"), (195, "stat")]

/-- What a system call prints. -/
def reply (n : BitVec 32) : List (BitVec 8) :=
  match calls.lookup n.toNat with
  | some name => ascii name ++ ascii " syscall\n"
  | none => ascii "Unknown Syscall\n"

/-- What it returns. -/
def answer (n : BitVec 32) : BitVec 32 := if (calls.lookup n.toNat).isSome then n else -1

/-- What an exception prints. -/
def lastWords (n : Fin 32) : List (BitVec 8) :=
  ascii "\nException! System Halted!\n" ++ ascii (exceptionMsgs.getD n "")

end Service

open Service

namespace TrapEvent

/-- A stub is entered. -/
def trap (l : Linked) (stub : Stub) (e : BitVec 32) (k : Traps) : Option Traps :=
  (firstCall l.env (stub.code (l.ret stub)) (stub.entered (l.offset stub) e k.state)).bind
    fun (f, t) =>
      let done := exec l.env (stub.code (l.ret stub)) (stub.entered (l.offset stub) e k.state)
      match f with
      | .syscallHandler => (syscallHandler (readIntRegs t.mem (argument t)) k.vga).map
          fun (_, vga) => ⟨done, vga, false⟩
      | .isrHandler => (isrHandler (readIntRegs t.mem (argument t)) k.vga).map
          fun (vga, loops) => ⟨if loops then t else done, vga, loops⟩
      | .irqHandler => none

/-- A stub finds the cursor on the screen, and a stack apart from the console. -/
def Fits (l : Linked) (depth : ℕ) (e : TrapEvent) (k : Traps) : Prop :=
  match e with
  | code _ _ => True
  | _ => k.halted = false → k.vga.column ≤ 80 ∧ l.StackApart depth k.state.cpu.esp

/-- The code leaves the console as its text does. No error code comes with a system call. -/
def act (l : Linked) (e : TrapEvent) (k : Traps) : Option Traps :=
  if k.halted then none
  else match e with
    | code s text => (vgaPrint text k.vga).map fun vga =>
      ⟨{ s with mem := l.overlay vga s.mem }, vga, false⟩
    | syscall => trap l .syscall 0 k
    | exception n e => trap l (.isr n) e k

/-- Nothing happens once the system is halted, and a tab does not come to an end. A system call
    leaves the selector of `ds` in the other data segments too. -/
def serve (e : TrapEvent) (p : Service) : Option Service :=
  if p.halted then none
  else match e with
    | code s text =>
      if (textOf text).contains 9 then none else some ⟨s.cpu, s.mem, p.text ++ textOf text, false⟩
    | syscall => some { p with
        cpu := { p.cpu with
          eax := answer p.cpu.eax
          es := p.cpu.ds
          fs := p.cpu.ds
          gs := p.cpu.ds }
        text := p.text ++ reply p.cpu.eax }
    | exception n _ => some { p with text := p.text ++ lastWords n, halted := true }

end TrapEvent

/-- The machine is what the service says: the text is on the console that showed `vga₀` first, and
    while the code runs its registers are as they should be, but for `cr2`, its memory has the
    console in it, and is as it should be elsewhere, but for some words below the stack pointer. -/
structure Serves (l : Linked) (depth : ℕ) (vga₀ : Vga) (k : Traps) (p : Service) : Prop where
  vga : putAll (p.text.map .char) vga₀ = some k.vga
  halted : k.halted = p.halted
  cpu : p.halted = false → k.state.cpu = { p.cpu with cr2 := k.state.cpu.cr2 }
  drawn : p.halted = false → ∀ x, l.console x = true → k.state.mem x = l.draw k.vga x
  mem : p.halted = false → ∀ x, l.console x = false → Clear p.cpu.esp (17 + depth) x →
    k.state.mem x = p.mem x

-- ════════════════════════════════════════════════════════════════════════
-- The handlers in one line each
-- ════════════════════════════════════════════════════════════════════════

section Handlers

theorem vgaPrint_of_notMem {str : List (BitVec 8)} (h : 0 ∉ str) (s : Vga) :
    vgaPrint str s = putAll (str.map .char) s := by
  have htake : str.takeWhile (· ≠ 0) = str :=
    List.takeWhile_eq_self_iff.mpr fun ch hch => by
      simpa using ne_of_mem_of_not_mem hch h
  rw [vgaPrint_eq_putAll, htake]

theorem putAll_append (os os' : List Output) (s : Vga) :
    putAll (os ++ os') s = (putAll os s).bind (putAll os') := Run.events_append

/-- A number in the list. -/
theorem syscall_known {regs : IntRegs} {name : String}
    (h : calls.lookup regs.eax.toNat = some name) (h0 : 0 ∉ ascii name ++ ascii " syscall\n")
    (vga : Vga) : (vgaPrint (ascii name ++ ascii " syscall\n") vga).map (fun vga => (regs, vga)) =
      (putAll ((reply regs.eax).map .char) vga).map fun vga =>
        ({ regs with eax := answer regs.eax }, vga) := by
  rw [reply, answer, h, vgaPrint_of_notMem h0]
  rfl

/-- Every number selects one line of the switch. -/
theorem syscallHandler_eq (regs : IntRegs) (vga : Vga) :
    syscallHandler regs vga = (putAll ((reply regs.eax).map .char) vga).map fun vga =>
      ({ regs with eax := answer regs.eax }, vga) := by
  unfold syscallHandler
  split
  case h_13 =>
    have hnone : calls.lookup regs.eax.toNat = none := by
      simp only [List.lookup_eq_none_iff, calls, List.forall_mem_cons, bne_iff_ne,
        List.not_mem_nil, ne_eq, false_implies, implies_true]
      tauto
    rw [reply, answer, hnone, vgaPrint_of_notMem (by decide)]
    rfl
  all_goals
    rename_i h
    exact syscall_known (congrArg (fun n => calls.lookup n) h) (by decide) vga

/-- The handler loops for every exception. -/
theorem isrHandler_eq {regs : IntRegs} {n : Fin 32} (h : regs.intNo = BitVec.ofNat 32 n)
    (vga : Vga) : isrHandler regs vga =
      (putAll ((lastWords n).map .char) vga).map fun vga => (vga, true) := by
  have htoNat : regs.intNo.toNat = n := by
    rw [h, BitVec.toNat_ofNat]
    omega
  have hlt : regs.intNo < 32 := by
    rw [BitVec.lt_def, htoNat]
    exact n.isLt
  have hname : ∀ n : Fin 32, 0 ∉ ascii (exceptionMsgs.getD n "") := by decide
  rw [isrHandler, if_pos hlt, htoNat, lastWords, List.map_append, putAll_append,
    vgaPrint_of_notMem (by decide), Option.map_bind]
  refine congrArg _ (funext fun vga => ?_)
  rw [vgaPrint_of_notMem (hname n)]
  rfl

theorem ascii_plain : ∀ name ∈ calls.map Prod.snd ++ exceptionMsgs,
    9 ∉ ascii name ∧ 8 ∉ ascii name := by
  decide

/-- The texts of the handlers have no tab and no backspace. -/
theorem reply_plain (n : BitVec 32) : 9 ∉ reply n ∧ 8 ∉ reply n := by
  rw [reply]
  split
  case h_1 name h =>
    obtain ⟨before, after, hcalls, -⟩ := List.lookup_eq_some_iff.mp h
    have hmem : (n.toNat, name) ∈ calls := by
      rw [hcalls]
      exact List.mem_append_right _ List.mem_cons_self
    have hname := ascii_plain name (List.mem_append_left _ (List.mem_map_of_mem hmem))
    rw [List.mem_append, List.mem_append, not_or, not_or]
    exact ⟨⟨hname.1, by decide⟩, hname.2, by decide⟩
  case h_2 => decide

theorem lastWords_plain : ∀ n, 9 ∉ lastWords n ∧ 8 ∉ lastWords n := by decide

end Handlers

-- ════════════════════════════════════════════════════════════════════════
-- Calls
-- ════════════════════════════════════════════════════════════════════════

section Calls

variable {env : Handler → State → State} {depth : ℕ} {s t u : State} {x : BitVec 32}

/-- Where a common stub writes up to its call. -/
theorem commonStub_mem {f g : Handler} {ret : BitVec 32} {pre : List (Instr Handler)}
    {a₀ : StackState} {c : Cpu} {ws : List (BitVec 32)} (h : Refines s a₀)
    (hlen : a₀.stack.length ≤ 4) (hpre : pre.length ≤ 3) (hexec : a₀.exec pre = some ⟨c, ws⟩)
    (hcall : firstCall env (pre ++ commonStub f ret) s = some (g, t))
    (hx : Clear a₀.bottom (a₀.stack.length + (pre.map Instr.pushes).sum + 12) x) :
    t.mem x = s.mem x := by
  obtain ⟨a, hsave, -⟩ := exec_saveRegs c ws
  have hall : a₀.exec (pre ++ saveRegs) = some a := by
    rw [StackState.exec_append, hexec, Option.bind_some, hsave]
  have hlength : (pre ++ saveRegs).length = pre.length + 11 := List.length_append
  have hpushes : ((pre ++ saveRegs).map Instr.pushes).sum = (pre.map Instr.pushes).sum + 11 := by
    rw [List.map_append, List.sum_append]
    rfl
  obtain ⟨hmem, hbottom, hdepth⟩ := h.exec_mem env (by omega) hall (hx.mono (by omega))
  have hsplit : pre ++ commonStub f ret = (pre ++ saveRegs) ++ .call f ret :: restoreRegs :=
    (List.append_assoc ..).symm
  rw [hsplit, firstCall_append h (by omega) hall] at hcall
  obtain ⟨rfl, rfl⟩ := Prod.mk.inj (Option.some.inj hcall)
  have hsaved := h.exec env (by omega) hall
  have hbound := hx
  rw [Clear] at hbound
  rw [State.push_mem hsaved.cpu (by omega), hmem]
  rw [hbottom]
  exact hx.mono (by omega)

/-- What is called for an exception. The words are one off for vector 17, but not below the
    vector. -/
theorem isr_called (env : Handler → State → State) (n : Fin 32) (offset ret e : BitVec 32)
    (s : State) : ∃ t, firstCall env ((Stub.isr n).code ret) ((Stub.isr n).entered offset e s) =
      some (.isrHandler, t) ∧ (readIntRegs t.mem (argument t)).intNo = BitVec.ofNat 32 n := by
  have hpre : (Stub.isr n).prelude.length ≤ 3 := by
    rw [Stub.prelude]
    split_ifs <;> simp
  rw [Stub.code_eq]
  by_cases h17 : (Stub.isr n).vector = 17
  · obtain ⟨a₀, flags, hentered, hlen, hexec⟩ := Stub.exec_prelude_17 offset e s h17
    obtain ⟨t, hfirst, -, -, -, -, hwords⟩ :=
      commonStub_call env .isrHandler ret hentered hlen hpre (by simp) hexec
    refine ⟨t, hfirst, ?_⟩
    rw [show n.val = 17 from h17]
    exact congrArg (fun ws => ws.getD 10 0) hwords
  · obtain ⟨a₀, flags, hentered, hlen, hexec⟩ := Stub.exec_prelude offset e s h17
    obtain ⟨t, hfirst, -, -, -, -, hwords⟩ :=
      commonStub_call env .isrHandler ret hentered hlen hpre (by simp) hexec
    exact ⟨t, hfirst, congrArg (fun ws => ws.getD 10 0) hwords⟩

/-- Where the stub of the system calls writes up to its call. -/
theorem syscall_mem {g : Handler} {offset ret e : BitVec 32}
    (hcall : firstCall env (Stub.syscall.code ret) (Stub.syscall.entered offset e s) = some (g, t))
    (hx : Clear s.cpu.esp 17 x) : t.mem x = s.mem x := by
  have hentered : Refines (Stub.syscall.entered offset e s)
      ⟨{ s.cpu with
          esp := s.cpu.esp - 12
          cs := 8
          eip := offset
          eflags := s.cpu.eflags &&& ~~~0x34300#32 },
        [s.cpu.eip, s.cpu.cs.setWidth 32, s.cpu.eflags]⟩ := refines_interrupt 8 offset none s
  have hmem : t.mem x = (Stub.syscall.entered offset e s).mem x := by
    rw [Stub.code_eq] at hcall
    refine commonStub_mem hentered (by simp) (by decide) rfl hcall ?_
    have hbottom : s.cpu.esp - 12 + BitVec.ofNat 32 (4 * 3) = s.cpu.esp :=
      BitVec.sub_add_cancel s.cpu.esp 12
    change Clear (s.cpu.esp - 12 + BitVec.ofNat 32 (4 * 3)) 17 x
    rw [hbottom]
    exact hx
  rw [hmem]
  exact interrupt_mem 8 offset none (hx.mono (by simp))

/-- What is called for a system call, and where the code goes on if the handler changes `eax`
    only. -/
theorem syscall_called (env : Handler → State → State) (offset ret e : BitVec 32) (s : State) :
    ∃ t, firstCall env (Stub.syscall.code ret) (Stub.syscall.entered offset e s) =
        some (.syscallHandler, t) ∧
      (readIntRegs t.mem (argument t)).eax = s.cpu.eax ∧ t.cpu.esp = s.cpu.esp - 68 ∧
      argument t = s.cpu.esp - 60 ∧ (∀ x, Clear s.cpu.esp 17 x → t.mem x = s.mem x) ∧
      (ChangedEax t (env .syscallHandler t) →
        (exec env (Stub.syscall.code ret) (Stub.syscall.entered offset e s)).cpu =
          { s.cpu with
            eax := (readIntRegs (env .syscallHandler t).mem (argument t)).eax
            es := s.cpu.ds
            fs := s.cpu.ds
            gs := s.cpu.ds
            cr2 := (env .syscallHandler t).cpu.cr2 }) ∧
      (exec env (Stub.syscall.code ret) (Stub.syscall.entered offset e s)).mem =
        (env .syscallHandler t).mem := by
  have hvector : Stub.syscall.vector ≠ 17 := by decide
  obtain ⟨a₀, flags, hentered, hlen, hexec⟩ := Stub.exec_prelude offset e s hvector
  obtain ⟨t, hfirst, hrun, hesp, hss, harg, hwords⟩ :=
    commonStub_call env .syscallHandler ret hentered hlen (by decide) (by simp) hexec
  have hcode : Stub.syscall.code ret = Stub.syscall.prelude ++ commonStub .syscallHandler ret :=
    Stub.code_eq .syscall ret
  rw [hcode]
  refine ⟨t, hfirst, congrArg (fun ws => ws.getD 9 0) hwords, ?_, ?_, fun x hx => ?_,
    fun hchanged => ?_, ?_⟩
  · rw [hesp]
    bv_omega
  · rw [harg]
    bv_omega
  · rw [← hcode] at hfirst
    exact syscall_mem hfirst hx
  · rw [hrun, restoreRegs_return env hesp hss harg hwords hchanged]
    simp
  · rw [hrun, exec_mem_of_quiet (by decide)]

end Calls

-- ════════════════════════════════════════════════════════════════════════
-- Runs
-- ════════════════════════════════════════════════════════════════════════

section Runs

variable {l : Linked} {depth : ℕ} {vga₀ : Vga} {k : Traps} {p : Service}

/-- A text without tabs can be printed. -/
theorem putAll_text {text : List (BitVec 8)} (h : 9 ∉ text) (s : Vga) :
    ∃ s', putAll (text.map .char) s = some s' := by
  refine Run.events_isSome fun o ho s => Output.put_isSome ?_ s
  obtain ⟨ch, hch, rfl⟩ := List.mem_map.mp ho
  exact ne_of_mem_of_not_mem hch h

/-- What the stub calls, when it fits. -/
theorem called_of_fits {s t : State} {vga : Vga} (hesp : t.cpu.esp = s.cpu.esp - 68)
    (harg : argument t = s.cpu.esp - 60) (hstack : l.StackApart depth s.cpu.esp)
    (hmem : ∀ x, Clear s.cpu.esp 17 x → t.mem x = s.mem x)
    (hdrawn : ∀ x, l.console x = true → s.mem x = l.draw vga x)
    (hscreen : vga.row < 25 ∧ vga.column ≤ 80) : Called l depth t vga := by
  refine ⟨?_, ?_, fun x hx => ?_, hscreen⟩
  · rw [harg, hesp]
    bv_omega
  · rw [hesp, BitVec.sub_add_cancel]
    exact hstack
  · have hclear := hstack x hx
    rw [Clear] at hclear
    have hbelow : Clear s.cpu.esp 17 x := by
      rw [Clear]
      bv_omega
    rw [hmem x hbelow, hdrawn x hx]

/-- A system call leaves the record alone, but for its answer. -/
theorem Returned.changedEax {t u : State} {vga : Vga}
    (h : Returned l depth t u { readIntRegs t.mem (argument t) with
      eax := answer (readIntRegs t.mem (argument t)).eax } vga) : ChangedEax t u := by
  refine ⟨h.esp, h.ss, ?_⟩
  rw [h.record]

/-- It leaves the memory alone, too, but for the console and the words below the stack pointer. -/
theorem Returned.mem_eq {s t u : State} {regs : IntRegs} {vga : Vga} {x : BitVec 32}
    (h : Returned l depth t u regs vga) (hesp : t.cpu.esp = s.cpu.esp - 68)
    (harg : argument t = s.cpu.esp - 60) (hconsole : l.console x = false)
    (hx : Clear s.cpu.esp (17 + depth) x) : u.mem x = t.mem x := by
  rw [Clear] at hx
  refine h.frame x hconsole ?_ ?_ ?_
  · rw [Clear, hesp]
    bv_omega
  · rw [hesp]
    bv_omega
  · rw [harg]
    bv_omega

/-- More text goes behind what has been printed. -/
theorem Serves.print (h : Serves l depth vga₀ k p) {text : List (BitVec 8)} {vga : Vga}
    (hprint : putAll (text.map .char) k.vga = some vga) :
    putAll ((p.text ++ text).map .char) vga₀ = some vga := by
  rw [List.map_append, putAll_append, h.vga, Option.bind_some, hprint]

/-- Code that is not interrupted. -/
theorem serves_code (h : Serves l depth vga₀ k p) (s : State) (text : List (BitVec 8)) :
    Option.Rel (Serves l depth vga₀)
      ((vgaPrint text k.vga).map fun vga => ⟨{ s with mem := l.overlay vga s.mem }, vga, false⟩)
      (if (textOf text).contains 9 then none
        else some ⟨s.cpu, s.mem, p.text ++ textOf text, false⟩) := by
  by_cases htab : (textOf text).contains 9
  · have hnone : vgaPrint text k.vga = none := by
      rw [Option.eq_none_iff_forall_ne_some]
      exact fun s' hs' => vgaPrint_isSome_iff.mp ⟨s', hs'⟩ (List.contains_iff_mem.mp htab)
    rw [if_pos htab, hnone]
    exact .none
  · obtain ⟨vga, hprint⟩ := vgaPrint_isSome_iff.mpr fun hmem =>
      htab (List.contains_iff_mem.mpr hmem)
    rw [if_neg htab, hprint]
    rw [vgaPrint_eq_putAll] at hprint
    refine .some ⟨h.print hprint, rfl, fun _ => rfl, fun _ x hx => if_pos hx, fun _ x hx _ => ?_⟩
    exact if_neg (Bool.eq_false_iff.mp hx)

/-- A system call. -/
theorem serves_syscall (hc : Compiled l depth) (hrow : vga₀.row < 25) (h : Serves l depth vga₀ k p)
    (hruns : p.halted = false) (hfits : TrapEvent.Fits l depth .syscall k) :
    ∃ k', TrapEvent.trap l .syscall 0 k = some k' ∧
      Serves l depth vga₀ k' { p with
        cpu := { p.cpu with
          eax := answer p.cpu.eax
          es := p.cpu.ds
          fs := p.cpu.ds
          gs := p.cpu.ds }
        text := p.text ++ reply p.cpu.eax } := by
  have hcpu := h.cpu hruns
  obtain ⟨t, hfirst, heax, hesp, harg, hmem, hcpu', hmem'⟩ := syscall_called l.env
    (l.offset .syscall) (l.ret .syscall) 0 k.state
  have heax' : k.state.cpu.eax = p.cpu.eax := by rw [hcpu]
  have hesp' : k.state.cpu.esp = p.cpu.esp := by rw [hcpu]
  obtain ⟨vga, hprint⟩ := putAll_text (reply_plain p.cpu.eax).1 k.vga
  obtain ⟨hcolumn, hstack⟩ := hfits (h.halted.trans hruns)
  have hcalled : Called l depth t k.vga :=
    called_of_fits hesp harg hstack hmem (h.drawn hruns) ⟨putAll_row hrow h.vga, hcolumn⟩
  have hreturned := hc t k.vga _ vga hcalled (by
    rw [syscallHandler_eq, heax, heax', hprint, Option.map_some])
  have hcpu' := hcpu' (Returned.changedEax (by rwa [heax, heax']))
  rw [hreturned.record] at hcpu'
  refine ⟨⟨exec l.env (Stub.syscall.code (l.ret .syscall))
    (Stub.syscall.entered (l.offset .syscall) 0 k.state), vga, false⟩, ?_,
    h.print hprint, hruns.symm, fun _ => ?_, fun _ x hx => ?_, fun _ x hconsole hx => ?_⟩
  · rw [TrapEvent.trap, hfirst, Option.bind_some]
    dsimp only
    rw [syscallHandler_eq, heax, heax', hprint]
    rfl
  · dsimp only
    rw [hcpu', hcpu]
  · dsimp only
    rw [hmem', hreturned.drawn x hx]
  · change Clear p.cpu.esp (17 + depth) x at hx
    have hold := h.mem hruns x hconsole hx
    rw [← hesp'] at hx
    dsimp only
    rw [hmem', hreturned.mem_eq hesp harg hconsole hx,
      hmem x (hx.mono (Nat.le_add_right 17 depth)), hold]

/-- An exception. -/
theorem serves_exception (h : Serves l depth vga₀ k p) (n : Fin 32) (e : BitVec 32) :
    ∃ k', TrapEvent.trap l (.isr n) e k = some k' ∧
      Serves l depth vga₀ k' { p with text := p.text ++ lastWords n, halted := true } := by
  obtain ⟨t, hfirst, hintNo⟩ := isr_called l.env n (l.offset (.isr n)) (l.ret (.isr n)) e k.state
  obtain ⟨vga, hprint⟩ := putAll_text (lastWords_plain n).1 k.vga
  refine ⟨⟨t, vga, true⟩, ?_, h.print hprint, rfl, fun hfalse => absurd hfalse (by simp),
    fun hfalse => absurd hfalse (by simp), fun hfalse => absurd hfalse (by simp)⟩
  rw [TrapEvent.trap, hfirst, Option.bind_some]
  dsimp only
  rw [isrHandler_eq hintNo, hprint]
  rfl

/-- The machine and the service stay in step. -/
theorem serves_act (hc : Compiled l depth) (hrow : vga₀.row < 25) (e : TrapEvent)
    (h : Serves l depth vga₀ k p) (hfits : e.Fits l depth k) :
    Option.Rel (Serves l depth vga₀) (e.act l k) (e.serve p) := by
  unfold TrapEvent.act TrapEvent.serve
  rw [h.halted]
  by_cases hhalted : p.halted
  · rw [if_pos hhalted, if_pos hhalted]
    exact .none
  · rw [if_neg hhalted, if_neg hhalted]
    cases e with
    | code s text => exact serves_code h s text
    | syscall =>
      obtain ⟨k', htrap, hserves⟩ := serves_syscall hc hrow h (by simpa using hhalted) hfits
      dsimp only
      rw [htrap]
      exact .some hserves
    | exception n e =>
      obtain ⟨k', htrap, hserves⟩ := serves_exception (l := l) h n e
      dsimp only
      rw [htrap]
      exact .some hserves

/-- To the code that runs, system calls and exceptions are the steps of the service: in any order,
    and wherever the text, the registers or the memory matter. -/
theorem serves_of_run (hc : Compiled l depth) (es : List TrapEvent) (s : State) (vga : Vga)
    (hrow : vga.row < 25)
    (hfits : ∀ ps e, ps ++ [e] <+: es → ∀ k, Run.events (TrapEvent.act l) ps
      ⟨{ s with mem := l.overlay vga s.mem }, vga, false⟩ = some k → e.Fits l depth k) :
    Option.Rel (Serves l depth vga) (Run.events (TrapEvent.act l) es
        ⟨{ s with mem := l.overlay vga s.mem }, vga, false⟩)
      (Run.events TrapEvent.serve es ⟨s.cpu, s.mem, [], false⟩) :=
  Run.events_rel_of_condition (fun e _ _ h hfits => serves_act hc hrow e h hfits)
    ⟨rfl, rfl, fun _ => rfl, fun _ _ hx => if_pos hx,
      fun _ _ hx _ => if_neg (Bool.eq_false_iff.mp hx)⟩ hfits

/-- The machine and the service, when the code has printed no backspace and its stack is apart from
    the console. -/
structure Steady (l : Linked) (depth : ℕ) (vga₀ : Vga) (k : Traps) (p : Service) : Prop where
  serves : Serves l depth vga₀ k p
  text : 8 ∉ p.text
  stack : l.StackApart depth p.cpu.esp

theorem Steady.fits (h : Steady l depth vga₀ k p) (hcolumn : vga₀.column ≤ 80) (e : TrapEvent) :
    e.Fits l depth k := by
  have hfits : k.halted = false → k.vga.column ≤ 80 ∧ l.StackApart depth k.state.cpu.esp := by
    intro hruns
    refine ⟨putAll_column h.text hcolumn h.serves.vga, ?_⟩
    rw [h.serves.cpu (h.serves.halted.symm.trans hruns)]
    exact h.stack
  cases e with
  | code s text => trivial
  | syscall => exact hfits
  | exception n e => exact hfits

theorem Steady.serve {p' : Service} {e : TrapEvent} (htext : 8 ∉ p.text)
    (hstack : l.StackApart depth p.cpu.esp)
    (hcode : ∀ s text, e = .code s text → l.StackApart depth s.cpu.esp ∧ 8 ∉ text)
    (h : e.serve p = some p') : 8 ∉ p'.text ∧ l.StackApart depth p'.cpu.esp := by
  unfold TrapEvent.serve at h
  split_ifs at h with hhalted
  cases e with
  | code s text =>
    dsimp only at h
    split_ifs at h with htab
    obtain rfl := Option.some.inj h
    obtain ⟨hesp, hplain⟩ := hcode s text rfl
    refine ⟨?_, hesp⟩
    rw [List.mem_append, not_or]
    exact ⟨htext, fun hmem => hplain ((List.takeWhile_prefix _).subset hmem)⟩
  | syscall =>
    obtain rfl := Option.some.inj h
    refine ⟨?_, hstack⟩
    rw [List.mem_append, not_or]
    exact ⟨htext, (reply_plain p.cpu.eax).2⟩
  | exception n e =>
    obtain rfl := Option.some.inj h
    refine ⟨?_, hstack⟩
    rw [List.mem_append, not_or]
    exact ⟨htext, (lastWords_plain n).2⟩

/-- A run in which the code prints no backspace and keeps its stack apart from the console fits. -/
theorem fits_of_steady (hc : Compiled l depth) {es : List TrapEvent} {s : State} {vga : Vga}
    (hrow : vga.row < 25) (hcolumn : vga.column ≤ 80) (hstack : l.StackApart depth s.cpu.esp)
    (hcode : ∀ s' text, .code s' text ∈ es → l.StackApart depth s'.cpu.esp ∧ 8 ∉ text) :
    ∀ ps e, ps ++ [e] <+: es → ∀ k, Run.events (TrapEvent.act l) ps
      ⟨{ s with mem := l.overlay vga s.mem }, vga, false⟩ = some k → e.Fits l depth k := by
  intro ps e hps k hk
  have hstart : Steady l depth vga ⟨{ s with mem := l.overlay vga s.mem }, vga, false⟩
      ⟨s.cpu, s.mem, [], false⟩ := by
    refine ⟨⟨rfl, rfl, fun _ => rfl, fun _ x hx => if_pos hx, fun _ x hx _ => ?_⟩,
      List.not_mem_nil, hstack⟩
    exact if_neg (Bool.eq_false_iff.mp hx)
  obtain ⟨p, hp⟩ : ∃ p, Steady l depth vga k p := by
    refine Run.events_invariant (I := fun k => ∃ p, Steady l depth vga k p)
      (fun f hf a ha b hb => ?_) ⟨_, hstart⟩ hk
    obtain ⟨p, hp⟩ := ha
    have hstep := serves_act hc hrow f hp.serves (hp.fits hcolumn f)
    rw [hb] at hstep
    cases hserve : f.serve p with
    | none =>
      rw [hserve] at hstep
      cases hstep
    | some p' =>
      rw [hserve] at hstep
      obtain ⟨htext, hesp⟩ := Steady.serve (l := l) hp.text hp.stack (fun s' text heq =>
        hcode s' text (heq ▸ hps.subset (List.mem_append_left _ hf))) hserve
      cases hstep with
      | some hserves => exact ⟨p', hserves, htext, hesp⟩
  exact hp.fits hcolumn e

-- ════════════════════════════════════════════════════════════════════════
-- A compiled handler
-- ════════════════════════════════════════════════════════════════════════

/-- The variables `vga_row`, `vga_column` and `vga_color` at 0xC010A000, and the text buffer with the
    row before it. -/
def consoleAt (x : BitVec 32) : Bool :=
  decide ((x - 0xC010A000#32).toNat < 9) || decide ((x - 0xC00B7F60#32).toNat < 4160)

/-- What they hold. -/
def drawConsole (vga : Vga) : Memory := fun x =>
  let k := (x - 0xC010A000#32).toNat
  let i := (x - 0xC00B8000#32).toNat
  if k < 4 then ByteMemory.byteOf (BitVec.ofNat 32 vga.row) k
  else if k < 8 then ByteMemory.byteOf (BitVec.ofNat 32 vga.column) (k - 4)
  else if k < 9 then vga.color
  else (vga.cells (i / 2)).extractLsb' (8 * (i % 2)) 8

/-- The console in memory. -/
def seenConsole (m : Memory) : Vga where
  row := (load m 0xC010A000#32).toNat
  column := (load m 0xC010A004#32).toNat
  color := m 0xC010A008#32
  cells i := m (0xC00B8000#32 + BitVec.ofNat 32 (2 * i + 1)) ++
    m (0xC00B8000#32 + BitVec.ofNat 32 (2 * i))
  cursorLow := 0
  cursorHigh := 0
  written := []

/-- The cells of the text buffer, and those of the row before it. -/
def ConsoleCell (i : ℕ) : Prop := i < 2000 ∨ 0x7FFFFFB0 ≤ i ∧ i < 0x80000000

theorem drawConsole_congr {vga vga' : Vga} (h : vga.Alike ConsoleCell vga') {x : BitVec 32}
    (hx : consoleAt x = true) : drawConsole vga x = drawConsole vga' x := by
  have hcell : 9 ≤ (x - 0xC010A000#32).toNat → ConsoleCell ((x - 0xC00B8000#32).toNat / 2) := by
    intro hk
    rw [consoleAt, Bool.or_eq_true, decide_eq_true_iff, decide_eq_true_iff] at hx
    have hbuffer : (x - 0xC00B7F60#32).toNat < 4160 := by omega
    have hlt := (x - 0xC00B8000#32).isLt
    rw [ConsoleCell]
    bv_omega
  rw [drawConsole, drawConsole, h.row, h.column, h.color]
  split_ifs with h₁ h₂ h₃
  · rfl
  · rfl
  · rfl
  · rw [h.same _ (hcell (by omega))]

/-- The console is read from the memory it is drawn in. -/
theorem seenConsole_alike {m : Memory} {vga : Vga}
    (hdrawn : ∀ x, consoleAt x = true → m x = drawConsole vga x)
    (hscreen : vga.row < 25 ∧ vga.column ≤ 80) : (seenConsole m).Alike ConsoleCell vga := by
  obtain ⟨hrow, hcolumn⟩ := hscreen
  have hvariable : ∀ (k : ℕ), k < 9 → (0xC010A000#32 + BitVec.ofNat 32 k - 0xC010A000#32).toNat = k ∧
      m (0xC010A000#32 + BitVec.ofNat 32 k) =
        drawConsole vga (0xC010A000#32 + BitVec.ofNat 32 k) := by
    intro k hk
    have hoff : (0xC010A000#32 + BitVec.ofNat 32 k - 0xC010A000#32).toNat = k := by bv_omega
    refine ⟨hoff, hdrawn _ ?_⟩
    rw [consoleAt, hoff, decide_eq_true hk, Bool.true_or]
  have hword : ∀ (b w : BitVec 32), (∀ k < 4, m (b + BitVec.ofNat 32 k) = ByteMemory.byteOf w k) →
      load m b = w := fun b w h => (ByteMemory.wordOf_congr h).trans (ByteMemory.wordOf_byteOf w)
  have hfirst : load m 0xC010A000#32 = BitVec.ofNat 32 vga.row := by
    refine hword _ _ fun k hk => ?_
    obtain ⟨hoff, hm⟩ := hvariable k (by omega)
    rw [hm, drawConsole, hoff]
    exact if_pos hk
  have hsecond : load m 0xC010A004#32 = BitVec.ofNat 32 vga.column := by
    refine hword _ _ fun k hk => ?_
    obtain ⟨hoff, hm⟩ := hvariable (k + 4) (by omega)
    have haddr : 0xC010A004#32 + BitVec.ofNat 32 k = 0xC010A000#32 + BitVec.ofNat 32 (k + 4) := by
      bv_omega
    rw [haddr, hm, drawConsole, hoff, if_neg (by omega), if_pos (by omega), Nat.add_sub_cancel]
  have hthird : m 0xC010A008#32 = vga.color := by
    obtain ⟨hoff, hm⟩ := hvariable 8 (by omega)
    rw [drawConsole, hoff] at hm
    exact hm
  have hcell : ∀ i j, ConsoleCell i → j < 2 → m (0xC00B8000#32 + BitVec.ofNat 32 (2 * i + j)) =
      (vga.cells i).extractLsb' (8 * j) 8 := by
    intro i j hi hj
    rw [ConsoleCell] at hi
    have hoff : (0xC00B8000#32 + BitVec.ofNat 32 (2 * i + j) - 0xC00B8000#32).toNat = 2 * i + j := by
      bv_omega
    have hlow : ¬ (0xC00B8000#32 + BitVec.ofNat 32 (2 * i + j) - 0xC010A000#32).toNat < 9 := by
      bv_omega
    have hin : (0xC00B8000#32 + BitVec.ofNat 32 (2 * i + j) - 0xC00B7F60#32).toNat < 4160 := by
      bv_omega
    rw [hdrawn _ (by rw [consoleAt, decide_eq_true hin, Bool.or_true]), drawConsole]
    rw [if_neg (by omega), if_neg (by omega), if_neg hlow, hoff,
      show (2 * i + j) / 2 = i by omega, show (2 * i + j) % 2 = j by omega]
  refine ⟨?_, ?_, hthird, fun i hi => ?_, fun i hi => .inl hi⟩
  · rw [seenConsole]
    dsimp only
    rw [hfirst, BitVec.toNat_ofNat, Nat.mod_eq_of_lt (by omega)]
  · rw [seenConsole]
    dsimp only
    rw [hsecond, BitVec.toNat_ofNat, Nat.mod_eq_of_lt (by omega)]
  · have hhigh := hcell i 1 hi (by omega)
    have hlow := hcell i 0 hi (by omega)
    have hcells : (seenConsole m).cells i = m (0xC00B8000#32 + BitVec.ofNat 32 (2 * i + 1)) ++
        m (0xC00B8000#32 + BitVec.ofNat 32 (2 * i + 0)) := rfl
    rw [hcells, hhigh, hlow]
    exact BitVec.extractLsb'_append_extractLsb'

theorem readIntRegs_congr {m m' : Memory} {a : BitVec 32}
    (h : ∀ k < 68, m (a + BitVec.ofNat 32 k) = m' (a + BitVec.ofNat 32 k)) :
    readIntRegs m a = readIntRegs m' a := by
  have hword : ∀ j ≤ 64, load m (a + BitVec.ofNat 32 j) = load m' (a + BitVec.ofNat 32 j) := by
    intro j hj
    refine ByteMemory.wordOf_congr fun k hk => ?_
    have hsum : a + BitVec.ofNat 32 j + BitVec.ofNat 32 k = a + BitVec.ofNat 32 (j + k) := by
      bv_omega
    rw [hsum]
    exact h (j + k) (by omega)
  have hfirst : load m a = load m' a := by simpa using hword 0 (by omega)
  simp only [readIntRegs, hfirst, IntRegs.mk.injEq, true_and]
  repeat' apply And.intro
  all_goals exact hword _ (by decide)

theorem readIntRegs_store_eax (m : Memory) (a w : BitVec 32) :
    readIntRegs (store m (a + 36) w) a = { readIntRegs m a with eax := w } := by
  have hkeep : ∀ k : BitVec 32, 4 ≤ (k - 36).toNat → (k - 36).toNat + 4 ≤ 2 ^ 32 →
      load (store m (a + 36) w) (a + k) = load m (a + k) := by
    intro k hlow hhigh
    have hoff : a + k - (a + 36) = k - 36 := by
      bv_omega
    refine load_store_of_le ?_ ?_
    · rw [hoff]
      exact hlow
    · rw [hoff]
      exact hhigh
  have hfirst : load (store m (a + 36) w) a = load m a := by
    simpa using hkeep 0 (by decide) (by decide)
  simp only [readIntRegs, load_store_self, hfirst, IntRegs.mk.injEq, true_and]
  repeat' apply And.intro
  all_goals exact hkeep _ (by decide) (by decide)

/-- What a compiled handler does to the memory before the console: `esi` and `ebx` are pushed, the
    word of the argument is used for another, and `eax` is stored. -/
def compiledStores (t : State) : Memory :=
  store (store (store (store t.mem (t.cpu.esp - 4) t.cpu.esi) (t.cpu.esp - 8) t.cpu.ebx)
    (t.cpu.esp + 4) 0xC0109000) (argument t + 36) (answer (readIntRegs t.mem (argument t)).eax)

/-- A compiled handler: it reads the console from memory, and leaves other values in `eax`, `ecx`
    and `edx`. -/
def compiledSyscall (t : State) : State where
  cpu := { t.cpu with esp := t.cpu.esp + 4, eax := 0xFFFFFFFF, ecx := 0, edx := 0x3D5 }
  mem x :=
    if consoleAt x then
      match putAll ((reply (readIntRegs t.mem (argument t)).eax).map .char) (seenConsole t.mem) with
      | some vga => drawConsole vga x
      | none => t.mem x
    else compiledStores t x

/-- A kernel that is linked with it. -/
def linkedKernel : Linked :=
  ⟨fun _ => 0xC0100000, fun _ => 0xC0100040, fun _ => compiledSyscall, consoleAt, drawConsole⟩

/-- The record after the stores, below which the console may have been changed. -/
theorem compiledStores_record {t : State} {m : Memory} {vga : Vga}
    (h : Called linkedKernel 2 t vga) (hm : ∀ x, consoleAt x = false → m x = compiledStores t x) :
    readIntRegs m (argument t) = { readIntRegs t.mem (argument t) with
      eax := answer (readIntRegs t.mem (argument t)).eax } := by
  rw [← readIntRegs_store_eax]
  refine readIntRegs_congr fun k hk => ?_
  have hesp : argument t = t.cpu.esp + 8 := h.argument
  have hconsole : consoleAt (argument t + BitVec.ofNat 32 k) = false := by
    by_contra hconsole
    have hclear := h.stack _ (Bool.eq_true_of_not_eq_false hconsole)
    rw [Clear, hesp] at hclear
    bv_omega
  have hbelow : store (store (store t.mem (t.cpu.esp - 4) t.cpu.esi) (t.cpu.esp - 8) t.cpu.ebx)
      (t.cpu.esp + 4) 0xC0109000 (argument t + BitVec.ofNat 32 k) =
        t.mem (argument t + BitVec.ofNat 32 k) := by
    rw [hesp, store_of_le (by bv_omega), store_of_le (by bv_omega), store_of_le (by bv_omega)]
  rw [hm _ hconsole]
  exact congrArg (fun b => if (argument t + BitVec.ofNat 32 k - (argument t + 36)).toNat < 4
    then _ else b) hbelow

theorem compiled_linkedKernel : Compiled linkedKernel 2 := by
  intro t vga regs vga' hcalled hreturns
  rw [syscallHandler_eq] at hreturns
  obtain ⟨vga₁, hprint, heq⟩ := Option.map_eq_some_iff.mp hreturns
  obtain ⟨rfl, rfl⟩ := Prod.mk.inj heq
  have halike := (seenConsole_alike hcalled.drawn hcalled.screen).putAll
    ((reply (readIntRegs t.mem (argument t)).eax).map .char)
  rw [hprint] at halike
  obtain ⟨vga₂, hseen, hsame⟩ : ∃ vga₂, putAll ((reply (readIntRegs t.mem (argument t)).eax).map
      .char) (seenConsole t.mem) = some vga₂ ∧ vga₂.Alike ConsoleCell vga₁ := by
    cases hseen : putAll ((reply (readIntRegs t.mem (argument t)).eax).map .char)
        (seenConsole t.mem) with
    | none =>
      rw [hseen] at halike
      cases halike
    | some vga₂ =>
      rw [hseen] at halike
      cases halike with
      | some h => exact ⟨vga₂, rfl, h⟩
  have hmem : ∀ x, consoleAt x = false → (compiledSyscall t).mem x = compiledStores t x :=
    fun x hx => if_neg (Bool.eq_false_iff.mp hx)
  refine ⟨rfl, rfl, compiledStores_record hcalled hmem, fun x hx => ?_, fun x hx hclear hlow heax =>
    ?_⟩
  · have hdrawn : (compiledSyscall t).mem x = drawConsole vga₂ x := by
      refine (if_pos hx).trans ?_
      rw [hseen]
    exact hdrawn.trans (drawConsole_congr hsame hx)
  · rw [Clear] at hclear
    refine (hmem x hx).trans ?_
    rw [compiledStores, store_of_le heax, store_of_le (by bv_omega), store_of_le (by bv_omega),
      store_of_le (by bv_omega)]

/-- The vector of a page fault. -/
def pageFault : Fin 32 := ⟨14, by decide⟩

/-- A prompt, a call of `getpid`, one of a number that is not in the list, and a page fault. -/
def trapsRun : List TrapEvent :=
  [.code { kernelState with cpu := { kernelState.cpu with eax := 20 } } (ascii "> "), .syscall,
    .code kernelState [10], .syscall, .exception pageFault 2]

theorem serves_of_run_getpid : ∃ k, Run.events (TrapEvent.act linkedKernel) trapsRun
      ⟨{ kernelState with mem := linkedKernel.overlay darkScreen kernelState.mem }, darkScreen,
        false⟩ = some k ∧ k.halted = true ∧
    putAll ((ascii "> getpid syscall\n\nwait syscall\n\nException! System Halted!\nPage Fault").map
      .char) darkScreen = some k.vga := by
  have hstack : linkedKernel.StackApart 2 kernelState.cpu.esp := by
    intro x hx
    change consoleAt x = true at hx
    rw [consoleAt, Bool.or_eq_true, decide_eq_true_iff, decide_eq_true_iff] at hx
    change 4 * 21 ≤ (0xC0108000#32 + 8 - 1 - x).toNat
    bv_omega
  have hrel := serves_of_run compiled_linkedKernel trapsRun kernelState darkScreen (by decide)
    (fits_of_steady compiled_linkedKernel (by decide) (by decide) hstack fun s text hmem => by
      simp only [trapsRun, List.mem_cons, TrapEvent.code.injEq, reduceCtorEq, List.not_mem_nil,
        or_false, false_or] at hmem
      obtain ⟨rfl, rfl⟩ | ⟨rfl, rfl⟩ := hmem
      · exact ⟨hstack, by decide⟩
      · exact ⟨hstack, by decide⟩)
  have hservice : ∃ p, Run.events TrapEvent.serve trapsRun
      ⟨kernelState.cpu, kernelState.mem, [], false⟩ = some p ∧ p.halted = true ∧
      p.text = ascii "> getpid syscall\n\nwait syscall\n\nException! System Halted!\nPage Fault" :=
    ⟨_, rfl, rfl, by decide⟩
  obtain ⟨p, hp, hhalted, htext⟩ := hservice
  rw [hp] at hrel
  cases hk : Run.events (TrapEvent.act linkedKernel) trapsRun
      ⟨{ kernelState with mem := linkedKernel.overlay darkScreen kernelState.mem }, darkScreen,
        false⟩ with
  | none =>
    rw [hk] at hrel
    cases hrel
  | some k =>
    rw [hk] at hrel
    cases hrel with
    | some hserves =>
      exact ⟨k, rfl, hserves.halted.trans hhalted, by rw [← htext]; exact hserves.vga⟩

end Runs

end FirstOs
