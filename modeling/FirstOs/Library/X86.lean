import FirstOs.Library.ByteMemory
import Mathlib.Data.BitVec
import Mathlib.Tactic.FinCases

/-!
# Straight-line code on the stack of the 32-bit x86

The instructions interrupt handlers are entered and left with, on a machine with registers and a
byte-addressed memory that wraps around at 2^32. A list of instructions runs from its head; a call
hands the state over to a function of the environment, which also returns.

`StackState` runs the same instructions on a list of words in place of memory. It knows nothing
about what was on the stack before, and gets stuck rather than pop it.

## Main definitions

- `step`, `exec`, `firstCall` — the machine
- `interrupt` — how the processor enters a handler of the same privilege level
- `StackState` — the stack as a list

## Main results

- `Refines.exec` — the machine follows the runs on lists
-/

namespace X86

-- ════════════════════════════════════════════════════════════════════════
-- Memory
-- ════════════════════════════════════════════════════════════════════════

/-- A byte for each address. -/
abbrev Memory := BitVec 32 → BitVec 8

/-- The word at an address, least significant byte first. -/
def load (m : Memory) (a : BitVec 32) : BitVec 32 :=
  ByteMemory.wordOf fun k => m (a + BitVec.ofNat 32 k)

/-- Store a word. -/
def store (m : Memory) (a w : BitVec 32) : Memory := fun x =>
  if (x - a).toNat < 4 then ByteMemory.byteOf w (x - a).toNat else m x

/-- These words lie one after the other from an address on. -/
def Holds (m : Memory) (a : BitVec 32) : List (BitVec 32) → Prop
  | [] => True
  | w :: ws => load m a = w ∧ Holds m (a + 4) ws

section Memory

variable {m : Memory} {a b w : BitVec 32} {ws : List (BitVec 32)}

theorem load_store_self : load (store m a w) a = w := by
  refine Eq.trans (ByteMemory.wordOf_congr fun k hk => ?_) (ByteMemory.wordOf_byteOf w)
  have hoff : (a + BitVec.ofNat 32 k - a).toNat = k := by
    rw [BitVec.add_comm, BitVec.add_sub_cancel, BitVec.toNat_ofNat]
    omega
  rw [store, hoff, if_pos hk]

/-- A byte outside the stored word stays. -/
theorem store_of_le {x : BitVec 32} (h : 4 ≤ (x - a).toNat) : store m a w x = m x :=
  if_neg (by omega)

/-- A word between the stored one and the end of its turn around memory stays. -/
theorem load_store_of_le (hlow : 4 ≤ (b - a).toNat) (hhigh : (b - a).toNat + 4 ≤ 2 ^ 32) :
    load (store m a w) b = load m b := by
  refine ByteMemory.wordOf_congr fun k hk => ?_
  have hoff : (b + BitVec.ofNat 32 k - a).toNat = (b - a).toNat + k := by
    bv_omega
  rw [store, hoff, if_neg (by omega)]

theorem Holds.store (h : Holds m b ws) (hlow : 4 ≤ (b - a).toNat)
    (hhigh : (b - a).toNat + 4 * ws.length ≤ 2 ^ 32) : Holds (store m a w) b ws := by
  induction ws generalizing b with
  | nil => trivial
  | cons v ws ih =>
    obtain ⟨hv, hws⟩ := h
    rw [List.length_cons] at hhigh
    refine ⟨(load_store_of_le hlow (by omega)).trans hv, ?_⟩
    cases ws with
    | nil => trivial
    | cons u ws =>
      rw [List.length_cons] at hhigh
      have hoff : (b + 4 - a).toNat = (b - a).toNat + 4 := by
        bv_omega
      exact ih hws (by omega) (by rw [List.length_cons]; omega)

theorem Holds.append_left {vs : List (BitVec 32)} (h : Holds m a (ws ++ vs)) : Holds m a ws := by
  induction ws generalizing a with
  | nil => trivial
  | cons w ws ih => exact ⟨h.1, ih h.2⟩

theorem Holds.unique {vs : List (BitVec 32)} (hv : Holds m a vs) (hw : Holds m a ws)
    (hlen : vs.length = ws.length) : vs = ws := by
  induction vs generalizing a ws with
  | nil => exact (List.length_eq_zero_iff.mp hlen.symm).symm
  | cons v vs ih =>
    cases ws with
    | nil => exact absurd hlen (by simp)
    | cons w ws =>
      obtain rfl := hv.1.symm.trans hw.1
      rw [ih hv.2 hw.2 (Nat.succ.inj hlen)]

/-- A word is pushed below the ones that are there. -/
theorem Holds.cons (h : Holds m a ws) (hlen : ws.length < 2 ^ 30) :
    Holds (X86.store m (a - 4) w) (a - 4) (w :: ws) := by
  have hoff : (a - (a - 4)).toNat = 4 := by
    bv_omega
  have hback : a - 4 + 4 = a := BitVec.sub_add_cancel a 4
  refine ⟨load_store_self, ?_⟩
  rw [hback]
  exact h.store (by omega) (by omega)

end Memory

-- ════════════════════════════════════════════════════════════════════════
-- Registers
-- ════════════════════════════════════════════════════════════════════════

inductive Reg where
  | eax
  | ecx
  | edx
  | ebx
  | esp
  | ebp
  | esi
  | edi

inductive Seg where
  | cs
  | ss
  | ds
  | es
  | fs
  | gs

structure Cpu where
  eax : BitVec 32
  ecx : BitVec 32
  edx : BitVec 32
  ebx : BitVec 32
  esp : BitVec 32
  ebp : BitVec 32
  esi : BitVec 32
  edi : BitVec 32
  cs : BitVec 16
  ss : BitVec 16
  ds : BitVec 16
  es : BitVec 16
  fs : BitVec 16
  gs : BitVec 16
  eip : BitVec 32
  eflags : BitVec 32
  cr2 : BitVec 32

namespace Cpu

def get (c : Cpu) : Reg → BitVec 32
  | .eax => c.eax
  | .ecx => c.ecx
  | .edx => c.edx
  | .ebx => c.ebx
  | .esp => c.esp
  | .ebp => c.ebp
  | .esi => c.esi
  | .edi => c.edi

def set (c : Cpu) (w : BitVec 32) : Reg → Cpu
  | .eax => { c with eax := w }
  | .ecx => { c with ecx := w }
  | .edx => { c with edx := w }
  | .ebx => { c with ebx := w }
  | .esp => { c with esp := w }
  | .ebp => { c with ebp := w }
  | .esi => { c with esi := w }
  | .edi => { c with edi := w }

def getSeg (c : Cpu) : Seg → BitVec 16
  | .cs => c.cs
  | .ss => c.ss
  | .ds => c.ds
  | .es => c.es
  | .fs => c.fs
  | .gs => c.gs

def setSeg (c : Cpu) (w : BitVec 16) : Seg → Cpu
  | .cs => { c with cs := w }
  | .ss => { c with ss := w }
  | .ds => { c with ds := w }
  | .es => { c with es := w }
  | .fs => { c with fs := w }
  | .gs => { c with gs := w }

end Cpu

/-- The flags an addition leaves: carry, parity, auxiliary carry, zero, sign and overflow. -/
def addFlags (flags x y : BitVec 32) : BitVec 32 :=
  let z := x + y
  let bit (b : Bool) (i : ℕ) : BitVec 32 := if b then 1#32 <<< i else 0
  flags &&& ~~~0x8D5#32 ||| bit (z < x) 0 |||
    bit (((List.range 8).countP fun i => z.getLsbD i) % 2 == 0) 2 |||
    bit (15 < x.toNat % 16 + y.toNat % 16) 4 ||| bit (z == 0) 6 ||| bit z.msb 7 |||
    bit (x.msb == y.msb && z.msb != x.msb) 11

-- ════════════════════════════════════════════════════════════════════════
-- The machine
-- ════════════════════════════════════════════════════════════════════════

structure State where
  cpu : Cpu
  mem : Memory

/-- Instructions; calls name a function and the address they return to. -/
inductive Instr (φ : Type) where
  | cli
  | sti
  /-- `mov r, seg` -/
  | readSeg (r : Reg) (seg : Seg)
  /-- `mov seg, r16` -/
  | writeSeg (seg : Seg) (r : Reg)
  /-- `mov r, cr2` -/
  | readCr2 (r : Reg)
  /-- `mov r16, imm16` -/
  | movLow (r : Reg) (imm : BitVec 16)
  /-- `add r, imm` -/
  | addImm (r : Reg) (imm : BitVec 32)
  | pushImm (imm : BitVec 32)
  | push (r : Reg)
  | pop (r : Reg)
  | pusha
  | popa
  | iret
  | call (f : φ) (ret : BitVec 32)

/-- What an instruction that leaves the stack alone does to the registers. -/
def Instr.onCpu {φ : Type} (c : Cpu) : Instr φ → Cpu
  | .cli => { c with eflags := c.eflags &&& ~~~0x200#32 }
  | .sti => { c with eflags := c.eflags ||| 0x200#32 }
  | .readSeg r seg => c.set ((c.getSeg seg).setWidth 32) r
  | .writeSeg seg r => c.setSeg ((c.get r).setWidth 16) seg
  | .readCr2 r => c.set c.cr2 r
  | .movLow r imm => c.set (c.get r &&& 0xFFFF0000#32 ||| imm.setWidth 32) r
  | .addImm r imm => { c.set (c.get r + imm) r with eflags := addFlags c.eflags (c.get r) imm }
  | _ => c

namespace State

def push (w : BitVec 32) (s : State) : State where
  cpu := { s.cpu with esp := s.cpu.esp - 4 }
  mem := store s.mem (s.cpu.esp - 4) w

/-- Move `esp` over the top word. -/
def drop (s : State) : State := { s with cpu := { s.cpu with esp := s.cpu.esp + 4 } }

/-- The top word. -/
def top (s : State) : BitVec 32 := load s.mem s.cpu.esp

/-- Pop a word and do something with it. -/
def popInto (set : BitVec 32 → Cpu → Cpu) (s : State) : State :=
  { s.drop with cpu := set s.top s.drop.cpu }

end State

/-- The registers as `pusha` pushes them, first one first. -/
def Cpu.all (c : Cpu) : List (BitVec 32) :=
  [c.eax, c.ecx, c.edx, c.ebx, c.esp, c.ebp, c.esi, c.edi]

/-- What the words that are popped go into, for each instruction that pops. `popa` skips `esp`. -/
def Instr.targets {φ : Type} : Instr φ → List (BitVec 32 → Cpu → Cpu)
  | .pop r => [fun w c => c.set w r]
  | .popa =>
    [fun w c => { c with edi := w }, fun w c => { c with esi := w }, fun w c => { c with ebp := w },
      fun _ c => c, fun w c => { c with ebx := w }, fun w c => { c with edx := w },
      fun w c => { c with ecx := w }, fun w c => { c with eax := w }]
  | .iret =>
    [fun w c => { c with eip := w }, fun w c => { c with cs := w.setWidth 16 },
      fun w c => { c with eflags := w }]
  | _ => []

/-- The words an instruction pushes, first one first. -/
def Instr.pushed {φ : Type} (c : Cpu) : Instr φ → List (BitVec 32)
  | .pushImm imm => [imm]
  | .push r => [c.get r]
  | .pusha => c.all
  | _ => []

section Machine

variable {φ : Type} (env : φ → State → State)

/-- One instruction: what it does to the registers, what it pushes and what it pops. None does two
    of these. -/
def step (i : Instr φ) (s : State) : State :=
  match i with
  | .call f ret => env f (s.push ret)
  | i =>
    i.targets.foldl (fun s set => s.popInto set)
      ((i.pushed s.cpu).foldl (fun s w => s.push w) { s with cpu := i.onCpu s.cpu })

/-- Run some code. -/
def exec (code : List (Instr φ)) (s : State) : State := code.foldl (fun s i => step env i s) s

/-- The first call of some code: the function, and the state it finds. -/
def firstCall : List (Instr φ) → State → Option (φ × State)
  | [], _ => none
  | .call f ret :: _, s => some (f, s.push ret)
  | i :: code, s => firstCall code (step env i s)

end Machine

/-- An interrupt through a gate with this selector and offset: flags, `cs`, `eip` and the error code
    if there is one are pushed, and TF, IF, NT, RF and VM are cleared. -/
def interrupt (selector : BitVec 16) (offset : BitVec 32) (error : Option (BitVec 32))
    (s : State) : State :=
  let s' := (error.toList).foldl (fun s w => s.push w)
    (((s.push s.cpu.eflags).push (s.cpu.cs.setWidth 32)).push s.cpu.eip)
  { s' with cpu := { s'.cpu with
    cs := selector, eip := offset, eflags := s.cpu.eflags &&& ~~~0x34300#32 } }

-- ════════════════════════════════════════════════════════════════════════
-- The stack as a list
-- ════════════════════════════════════════════════════════════════════════

/-- The registers, and the words from `esp` on that are known. -/
structure StackState where
  cpu : Cpu
  stack : List (BitVec 32)

/-- Instructions that move `esp` only by what they push and pop. -/
def Instr.keepsEsp {φ : Type} : Instr φ → Bool
  | .readSeg .esp _ | .readCr2 .esp | .movLow .esp _ | .addImm .esp _ | .pop .esp => false
  | _ => true

namespace StackState

def push (w : BitVec 32) (a : StackState) : StackState where
  cpu := { a.cpu with esp := a.cpu.esp - 4 }
  stack := w :: a.stack

def popInto (set : BitVec 32 → Cpu → Cpu) : StackState → Option StackState
  | ⟨_, []⟩ => none
  | ⟨c, w :: ws⟩ => some ⟨set w { c with esp := c.esp + 4 }, ws⟩

/-- One instruction. Adding to `esp` drops words. -/
def step {φ : Type} (i : Instr φ) (a : StackState) : Option StackState :=
  match i with
  | .call _ _ => none
  | .addImm .esp imm =>
    if imm.toNat % 4 = 0 ∧ imm.toNat / 4 ≤ a.stack.length then
      some ⟨(Instr.addImm .esp imm : Instr φ).onCpu a.cpu, a.stack.drop (imm.toNat / 4)⟩
    else none
  | i =>
    if i.keepsEsp then
      i.targets.foldlM (fun a set => a.popInto set)
        ((i.pushed a.cpu).foldl (fun a w => a.push w) { a with cpu := i.onCpu a.cpu })
    else none

def exec {φ : Type} : List (Instr φ) → StackState → Option StackState
  | [], a => some a
  | i :: code, a => (a.step i).bind (exec code)

end StackState

/-- The machine has these registers, and these words on its stack. -/
structure Refines (s : State) (a : StackState) : Prop where
  cpu : s.cpu = a.cpu
  stack : Holds s.mem s.cpu.esp a.stack

section Refinement

variable {φ : Type} {env : φ → State → State} {s : State} {a a' : StackState} {w : BitVec 32}
  {set : BitVec 32 → Cpu → Cpu} {i : Instr φ} {code rest : List (Instr φ)} {f : φ}
  {ret : BitVec 32} {m : Memory} {b : BitVec 32} {ws : List (BitVec 32)}

theorem Holds.drop (h : Holds m b ws) (k : ℕ) :
    Holds m (b + BitVec.ofNat 32 (4 * k)) (ws.drop k) := by
  induction k generalizing b ws with
  | zero =>
    rw [Nat.mul_zero, List.drop_zero]
    exact (BitVec.add_zero b).symm ▸ h
  | succ k ih =>
    cases ws with
    | nil => exact trivial
    | cons w ws =>
      have hnext : b + BitVec.ofNat 32 (4 * (k + 1)) = b + 4 + BitVec.ofNat 32 (4 * k) := by
        bv_omega
      rw [hnext]
      exact ih h.2

theorem Refines.push (h : Refines s a) (hlen : a.stack.length < 2 ^ 30) :
    Refines (s.push w) (a.push w) := by
  refine ⟨?_, h.stack.cons hlen⟩
  rw [State.push, StackState.push, h.cpu]

theorem Refines.pushes (h : Refines s a) (ws : List (BitVec 32))
    (hlen : a.stack.length + ws.length ≤ 2 ^ 30) :
    Refines (ws.foldl (fun s w => s.push w) s) (ws.foldl (fun a w => a.push w) a) := by
  induction ws generalizing s a with
  | nil => exact h
  | cons w ws ih =>
    rw [List.length_cons] at hlen
    have hlen' : (a.push w).stack.length = a.stack.length + 1 := rfl
    exact ih (h.push (by omega)) (by dsimp only; omega)

theorem Refines.popInto (h : Refines s a) (hesp : ∀ w c, (set w c).esp = c.esp)
    (hpop : a.popInto set = some a') : Refines (s.popInto set) a' := by
  obtain ⟨c, stack⟩ := a
  cases stack with
  | nil => exact absurd hpop (by simp [StackState.popInto])
  | cons w ws =>
    obtain rfl := Option.some.inj hpop
    obtain ⟨htop, hrest⟩ := h.stack
    obtain rfl : s.cpu = c := h.cpu
    constructor
    · rw [State.popInto, State.top, htop]
      rfl
    · rw [State.popInto]
      dsimp only
      rw [hesp]
      exact hrest

theorem Refines.pops {sets : List (BitVec 32 → Cpu → Cpu)} (h : Refines s a)
    (hesp : ∀ set ∈ sets, ∀ w c, (set w c).esp = c.esp)
    (hpop : sets.foldlM (fun a set => a.popInto set) a = some a') :
    Refines (sets.foldl (fun s set => s.popInto set) s) a' := by
  induction sets generalizing s a with
  | nil => exact Option.some.inj hpop ▸ h
  | cons set sets ih =>
    rw [List.foldlM_cons] at hpop
    obtain ⟨a₁, hfirst, hrest⟩ := Option.bind_eq_some_iff.mp hpop
    exact ih (h.popInto (hesp set List.mem_cons_self) hfirst)
      (fun g hg => hesp g (List.mem_cons_of_mem set hg)) hrest

theorem Instr.onCpu_esp (h : i.keepsEsp = true) (c : Cpu) : (i.onCpu c).esp = c.esp := by
  cases i with
  | readSeg r seg => cases r <;> first | rfl | exact absurd h Bool.false_ne_true
  | writeSeg seg r => cases seg <;> rfl
  | readCr2 r => cases r <;> first | rfl | exact absurd h Bool.false_ne_true
  | movLow r imm => cases r <;> first | rfl | exact absurd h Bool.false_ne_true
  | addImm r imm => cases r <;> first | rfl | exact absurd h Bool.false_ne_true
  | _ => rfl

theorem Instr.targets_esp (h : i.keepsEsp = true) :
    ∀ set ∈ i.targets, ∀ w c, (set w c).esp = c.esp := by
  intro set hset w c
  cases i with
  | pop r =>
    obtain rfl := List.mem_singleton.mp hset
    cases r <;> first | rfl | exact absurd h Bool.false_ne_true
  | popa => fin_cases hset <;> rfl
  | iret => fin_cases hset <;> rfl
  | _ => exact absurd hset List.not_mem_nil

theorem Instr.length_pushed (c : Cpu) (i : Instr φ) : (i.pushed c).length ≤ 8 := by
  cases i <;> simp [Instr.pushed, Cpu.all]

/-- What a step on a list does. -/
theorem StackState.step_cases (hstep : a.step i = some a') :
    (∃ imm, i = .addImm .esp imm ∧ imm.toNat % 4 = 0 ∧
      a' = ⟨i.onCpu a.cpu, a.stack.drop (imm.toNat / 4)⟩) ∨
    ((∀ f ret, i ≠ .call f ret) ∧ i.keepsEsp = true ∧
      i.targets.foldlM (fun a set => a.popInto set)
        ((i.pushed a.cpu).foldl (fun a w => a.push w) { a with cpu := i.onCpu a.cpu }) =
          some a') := by
  have hgeneral : (∀ f ret, i ≠ .call f ret) → (∀ imm, i ≠ .addImm .esp imm) →
      i.keepsEsp = true ∧ i.targets.foldlM (fun a set => a.popInto set)
        ((i.pushed a.cpu).foldl (fun a w => a.push w) { a with cpu := i.onCpu a.cpu }) =
          some a' := by
    intro hcall hadd
    rw [StackState.step] at hstep
    · split_ifs at hstep with hkeeps
      · exact ⟨hkeeps, hstep⟩
    · exact hcall
    · exact hadd
  cases i with
  | call f ret => exact absurd hstep (by simp [StackState.step])
  | addImm r imm =>
    cases r with
    | esp =>
      rw [StackState.step] at hstep
      split_ifs at hstep with hfits
      · exact .inl ⟨imm, rfl, hfits.1, (Option.some.inj hstep).symm⟩
    | _ => exact .inr ⟨by simp, hgeneral (by simp) (by simp)⟩
  | _ => exact .inr ⟨by simp, hgeneral (by simp) (by simp)⟩

theorem StackState.length_popInto (hpop : a.popInto set = some a') :
    a'.stack.length ≤ a.stack.length := by
  obtain ⟨c, stack⟩ := a
  cases stack with
  | nil => exact absurd hpop (by simp [StackState.popInto])
  | cons w ws =>
    obtain rfl := Option.some.inj hpop
    exact Nat.le_succ _

theorem StackState.length_pops {sets : List (BitVec 32 → Cpu → Cpu)}
    (hpop : sets.foldlM (fun a set => a.popInto set) a = some a') :
    a'.stack.length ≤ a.stack.length := by
  induction sets generalizing a with
  | nil => exact Option.some.inj hpop ▸ Nat.le_refl _
  | cons set sets ih =>
    rw [List.foldlM_cons] at hpop
    obtain ⟨a₁, hfirst, hrest⟩ := Option.bind_eq_some_iff.mp hpop
    exact (ih hrest).trans (StackState.length_popInto hfirst)

theorem StackState.length_pushes (ws : List (BitVec 32)) (a : StackState) :
    (ws.foldl (fun a w => a.push w) a).stack.length = a.stack.length + ws.length := by
  induction ws generalizing a with
  | nil => rfl
  | cons w ws ih =>
    rw [List.foldl_cons, ih, StackState.push, List.length_cons, List.length_cons]
    omega

/-- The machine follows a step, which adds eight words at most. -/
theorem Refines.step (h : Refines s a) (env : φ → State → State)
    (hlen : a.stack.length + 8 ≤ 2 ^ 30)
    (hstep : a.step i = some a') :
    Refines (X86.step env i s) a' ∧ a'.stack.length ≤ a.stack.length + 8 := by
  obtain ⟨imm, rfl, hmod, rfl⟩ | ⟨hcall, hkeeps, hpop⟩ := StackState.step_cases hstep
  · refine ⟨⟨?_, ?_⟩, by rw [List.length_drop]; omega⟩
    · rw [X86.step, ← h.cpu]
      · rfl
      · exact fun _ _ he => by cases he
    · have himm : imm = BitVec.ofNat 32 (4 * (imm.toNat / 4)) := by
        bv_omega
      have hdrop := h.stack.drop (imm.toNat / 4)
      rw [← himm] at hdrop
      rw [X86.step]
      · exact hdrop
      · exact fun _ _ he => by cases he
  · have hcpu : Refines { s with cpu := i.onCpu s.cpu } { a with cpu := i.onCpu a.cpu } := by
      refine ⟨congrArg i.onCpu h.cpu, ?_⟩
      dsimp only
      rw [Instr.onCpu_esp hkeeps]
      exact h.stack
    have hpushed := Instr.length_pushed a.cpu i
    have hpushes := hcpu.pushes (i.pushed a.cpu) (by dsimp only; omega)
    have hlength := StackState.length_pops hpop
    rw [StackState.length_pushes] at hlength
    refine ⟨?_, by dsimp only at hlength; omega⟩
    rw [X86.step, h.cpu]
    · rw [h.cpu] at hpushes
      exact hpushes.pops (Instr.targets_esp hkeeps) hpop
    · exact hcall

/-- The machine follows a run. -/
theorem Refines.exec (h : Refines s a) (env : φ → State → State)
    (hlen : a.stack.length + 8 * code.length ≤ 2 ^ 30)
    (hexec : a.exec code = some a') : Refines (X86.exec env code s) a' := by
  induction code generalizing s a with
  | nil => exact Option.some.inj hexec ▸ h
  | cons i code ih =>
    rw [List.length_cons] at hlen
    obtain ⟨a₁, hfirst, hrest⟩ := Option.bind_eq_some_iff.mp hexec
    obtain ⟨hstep, hlength⟩ := h.step env (by omega) hfirst
    exact ih hstep (by omega) hrest

/-- Code that runs on a list calls nothing. -/
theorem firstCall_append (h : Refines s a) (hlen : a.stack.length + 8 * code.length ≤ 2 ^ 30)
    (hexec : a.exec code = some a') : firstCall env (code ++ .call f ret :: rest) s =
      some (f, (X86.exec env code s).push ret) := by
  induction code generalizing s a with
  | nil => rfl
  | cons i code ih =>
    rw [List.length_cons] at hlen
    obtain ⟨a₁, hfirst, hrest⟩ := Option.bind_eq_some_iff.mp hexec
    obtain ⟨hstep, hlength⟩ := h.step env (by omega) hfirst
    rw [List.cons_append, firstCall]
    · exact ih hstep (by omega) hrest
    · rintro g r rfl
      exact absurd hfirst (by simp [StackState.step])

theorem StackState.exec_append (a : StackState) (rest : List (Instr φ)) :
    a.exec (code ++ rest) = (a.exec code).bind (StackState.exec rest) := by
  induction code generalizing a with
  | nil => rfl
  | cons i code ih =>
    rw [List.cons_append, StackState.exec, StackState.exec, Option.bind_assoc]
    exact congrArg _ (funext ih)

theorem exec_call (s : State) (code : List (Instr φ)) :
    X86.exec env (.call f ret :: code) s = X86.exec env code (env f (s.push ret)) := rfl

theorem exec_append (s : State) (rest : List (Instr φ)) :
    X86.exec env (code ++ rest) s = X86.exec env rest (X86.exec env code s) :=
  List.foldl_append

-- Where the writes go: below the end of the known stack, which a run does not move.

/-- The address behind the known words. -/
def StackState.bottom (a : StackState) : BitVec 32 :=
  a.cpu.esp + BitVec.ofNat 32 (4 * a.stack.length)

/-- The address is not in one of the `n` words before `b`. -/
def Clear (b : BitVec 32) (n : ℕ) (x : BitVec 32) : Prop := 4 * n ≤ (b - 1 - x).toNat

theorem Clear.mono {n n' : ℕ} {x : BitVec 32} (h : Clear b n x) (hle : n' ≤ n) : Clear b n' x :=
  (Nat.mul_le_mul_left 4 hle).trans h

theorem StackState.bottom_push (a : StackState) (w : BitVec 32) : (a.push w).bottom = a.bottom := by
  have hlen : 4 * (w :: a.stack).length = 4 * a.stack.length + 4 := by
    rw [List.length_cons]
    omega
  change a.cpu.esp - 4 + BitVec.ofNat 32 (4 * (w :: a.stack).length) = a.bottom
  rw [hlen, StackState.bottom]
  bv_omega

theorem StackState.bottom_pushes (ws : List (BitVec 32)) (a : StackState) :
    (ws.foldl (fun a w => a.push w) a).bottom = a.bottom := by
  induction ws generalizing a with
  | nil => rfl
  | cons w ws ih => exact (ih (a.push w)).trans (a.bottom_push w)

theorem StackState.bottom_popInto (hesp : ∀ w c, (set w c).esp = c.esp)
    (hpop : a.popInto set = some a') : a'.bottom = a.bottom := by
  obtain ⟨c, stack⟩ := a
  cases stack with
  | nil => exact absurd hpop (by simp [StackState.popInto])
  | cons w ws =>
    obtain rfl := Option.some.inj hpop
    have hlen : 4 * (w :: ws).length = 4 * ws.length + 4 := by
      rw [List.length_cons]
      omega
    change (set w { c with esp := c.esp + 4 }).esp + BitVec.ofNat 32 (4 * ws.length) =
      c.esp + BitVec.ofNat 32 (4 * (w :: ws).length)
    rw [hesp, hlen]
    bv_omega

theorem StackState.bottom_pops {sets : List (BitVec 32 → Cpu → Cpu)}
    (hesp : ∀ set ∈ sets, ∀ w c, (set w c).esp = c.esp)
    (hpop : sets.foldlM (fun a set => a.popInto set) a = some a') : a'.bottom = a.bottom := by
  induction sets generalizing a with
  | nil => exact Option.some.inj hpop ▸ rfl
  | cons set sets ih =>
    rw [List.foldlM_cons] at hpop
    obtain ⟨a₁, hfirst, hrest⟩ := Option.bind_eq_some_iff.mp hpop
    exact (ih (fun g hg => hesp g (List.mem_cons_of_mem set hg)) hrest).trans
      (StackState.bottom_popInto (hesp set List.mem_cons_self) hfirst)

/-- A push writes the word below the known ones. -/
theorem State.push_mem {x : BitVec 32} (hcpu : s.cpu = a.cpu) (hlen : a.stack.length < 2 ^ 30)
    (hx : Clear a.bottom (a.stack.length + 1) x) : (s.push w).mem x = s.mem x := by
  have hoff : ¬ (x - (a.cpu.esp - 4)).toNat < 4 := by
    rw [Clear, StackState.bottom] at hx
    bv_omega
  change store s.mem (s.cpu.esp - 4) w x = s.mem x
  rw [store, hcpu, if_neg hoff]

theorem State.pushes_mem {x : BitVec 32} (hcpu : s.cpu = a.cpu) (ws : List (BitVec 32))
    (hlen : a.stack.length + ws.length ≤ 2 ^ 30)
    (hx : Clear a.bottom (a.stack.length + ws.length) x) :
    (ws.foldl (fun s w => s.push w) s).mem x = s.mem x := by
  induction ws generalizing s a with
  | nil => rfl
  | cons w ws ih =>
    rw [List.length_cons] at hlen hx
    have hfirst : (s.push w).mem x = s.mem x :=
      State.push_mem hcpu (by omega) (hx.mono (by omega))
    have hcpu' : (s.push w).cpu = (a.push w).cpu := by
      rw [State.push, StackState.push, hcpu]
    have hlen' : (a.push w).stack.length = a.stack.length + 1 := rfl
    rw [List.foldl_cons, ih hcpu' (by omega), hfirst]
    rw [a.bottom_push, hlen']
    exact hx.mono (by omega)

theorem State.pops_mem (sets : List (BitVec 32 → Cpu → Cpu)) (s : State) :
    (sets.foldl (fun s set => s.popInto set) s).mem = s.mem := by
  induction sets generalizing s with
  | nil => rfl
  | cons set sets ih => exact ih (s.popInto set)

/-- How many words an instruction pushes. -/
def Instr.pushes {φ : Type} : Instr φ → ℕ
  | .pushImm _ | .push _ => 1
  | .pusha => 8
  | _ => 0

theorem Instr.length_pushed_eq (c : Cpu) (i : Instr φ) : (i.pushed c).length = i.pushes := by
  cases i <;> rfl

/-- A step writes the words it pushes. -/
theorem Refines.step_mem {x : BitVec 32} (h : Refines s a) (env : φ → State → State)
    (hlen : a.stack.length + 8 ≤ 2 ^ 30) (hstep : a.step i = some a')
    (hx : Clear a.bottom (a.stack.length + i.pushes) x) :
    (X86.step env i s).mem x = s.mem x ∧ a'.bottom = a.bottom ∧
      a'.stack.length ≤ a.stack.length + i.pushes := by
  obtain ⟨imm, rfl, hmod, rfl⟩ | ⟨hcall, hkeeps, hpop⟩ := StackState.step_cases hstep
  · refine ⟨?_, ?_, ?_⟩
    · rw [X86.step]
      · rfl
      · exact fun _ _ he => by cases he
    · rw [StackState.step] at hstep
      split_ifs at hstep with hfits
      change a.cpu.esp + imm + BitVec.ofNat 32 (4 * (a.stack.drop (imm.toNat / 4)).length) = _
      rw [List.length_drop, StackState.bottom]
      bv_omega
    · rw [List.length_drop]
      omega
  · have hbottom : StackState.bottom { a with cpu := i.onCpu a.cpu } = a.bottom := by
      rw [StackState.bottom, StackState.bottom]
      dsimp only
      rw [Instr.onCpu_esp hkeeps]
    have hlength := StackState.length_pops hpop
    have hends := StackState.bottom_pops (Instr.targets_esp hkeeps) hpop
    rw [StackState.length_pushes, Instr.length_pushed_eq] at hlength
    rw [StackState.bottom_pushes, hbottom] at hends
    refine ⟨?_, hends, hlength⟩
    have hpushed := Instr.length_pushed a.cpu i
    rw [X86.step, State.pops_mem]
    · rw [h.cpu]
      refine State.pushes_mem (s := { s with cpu := i.onCpu a.cpu })
        (a := { a with cpu := i.onCpu a.cpu }) rfl (i.pushed a.cpu) (by dsimp only; omega) ?_
      rw [hbottom, Instr.length_pushed_eq]
      exact hx
    · exact hcall

/-- A run writes the words it pushes. -/
theorem Refines.exec_mem {x : BitVec 32} (h : Refines s a) (env : φ → State → State)
    (hlen : a.stack.length + 8 * code.length ≤ 2 ^ 30) (hexec : a.exec code = some a')
    (hx : Clear a.bottom (a.stack.length + (code.map Instr.pushes).sum) x) :
    (X86.exec env code s).mem x = s.mem x ∧ a'.bottom = a.bottom ∧
      a'.stack.length ≤ a.stack.length + (code.map Instr.pushes).sum := by
  induction code generalizing s a with
  | nil =>
    obtain rfl := Option.some.inj hexec
    exact ⟨rfl, rfl, Nat.le_add_right _ _⟩
  | cons i code ih =>
    rw [List.length_cons] at hlen
    rw [List.map_cons, List.sum_cons] at hx ⊢
    obtain ⟨a₁, hfirst, hrest⟩ := Option.bind_eq_some_iff.mp hexec
    obtain ⟨hstep, hlength⟩ := h.step env (by omega) hfirst
    obtain ⟨hmem, hbottom, hpushes⟩ := h.step_mem env (by omega) hfirst (hx.mono (by omega))
    have hclear : Clear a₁.bottom (a₁.stack.length + (code.map Instr.pushes).sum) x := by
      rw [hbottom]
      exact hx.mono (by omega)
    obtain ⟨hmem', hbottom', hpushes'⟩ := ih hstep (by omega) hrest hclear
    exact ⟨hmem'.trans hmem, hbottom'.trans hbottom, by omega⟩

/-- The words an interrupt leaves, on a stack of which nothing is known. -/
theorem refines_interrupt (selector : BitVec 16) (offset : BitVec 32) (error : Option (BitVec 32))
    (s : State) : Refines (interrupt selector offset error s)
      ⟨{ s.cpu with
          esp := s.cpu.esp - BitVec.ofNat 32 (4 * (error.toList.length + 3))
          cs := selector
          eip := offset
          eflags := s.cpu.eflags &&& ~~~0x34300#32 },
        error.toList ++ [s.cpu.eip, s.cpu.cs.setWidth 32, s.cpu.eflags]⟩ := by
  have hstart : Refines s ⟨s.cpu, []⟩ := ⟨rfl, trivial⟩
  have hflags := hstart.push (w := s.cpu.eflags) (by simp)
  have hcs := hflags.push (w := s.cpu.cs.setWidth 32) (by simp [StackState.push])
  have heip := hcs.push (w := s.cpu.eip) (by simp [StackState.push])
  cases error with
  | none =>
    have hesp : s.cpu.esp - BitVec.ofNat 32 (4 * (0 + 3)) = s.cpu.esp - 4 - 4 - 4 := by
      bv_omega
    refine ⟨?_, heip.stack⟩
    rw [Option.toList_none, List.length_nil, hesp]
    rfl
  | some e =>
    have herror := heip.push (w := e) (by simp [StackState.push])
    have hesp : s.cpu.esp - BitVec.ofNat 32 (4 * (0 + 1 + 3)) = s.cpu.esp - 4 - 4 - 4 - 4 := by
      bv_omega
    refine ⟨?_, herror.stack⟩
    rw [Option.toList_some, List.length_cons, List.length_nil, hesp]
    rfl

/-- Instructions that write nothing to memory. -/
def Instr.quiet {φ : Type} : Instr φ → Bool
  | .pushImm _ | .push _ | .pusha | .call _ _ => false
  | _ => true

theorem exec_mem_of_quiet (hcode : code.all Instr.quiet) (s : State) :
    (X86.exec env code s).mem = s.mem := by
  induction code generalizing s with
  | nil => rfl
  | cons i code ih =>
    rw [List.all_cons, Bool.and_eq_true] at hcode
    obtain ⟨hi, hcode⟩ := hcode
    have hstep : (X86.step env i s).mem = s.mem := by
      cases i with
      | pushImm | push | pusha | call => exact absurd hi Bool.false_ne_true
      | _ =>
        rw [X86.step, State.pops_mem]
        · rfl
        · exact fun _ _ he => by cases he
    exact (ih hcode (X86.step env i s)).trans hstep

/-- An interrupt writes the words it pushes. -/
theorem interrupt_mem (selector : BitVec 16) (offset : BitVec 32) (error : Option (BitVec 32))
    {x : BitVec 32} (hx : Clear s.cpu.esp (error.toList.length + 3) x) :
    (interrupt selector offset error s).mem x = s.mem x := by
  have hbottom : StackState.bottom ⟨s.cpu, []⟩ = s.cpu.esp := BitVec.add_zero _
  have hlen : error.toList.length ≤ 1 := Option.length_toList_le
  refine State.pushes_mem (a := ⟨s.cpu, []⟩) rfl
    ([s.cpu.eflags, s.cpu.cs.setWidth 32, s.cpu.eip] ++ error.toList) ?_ ?_
  · simp
    omega
  · rw [hbottom]
    refine hx.mono ?_
    simp

end Refinement

-- Runs on lists are computed instruction by instruction.
attribute [simp] StackState.exec StackState.step StackState.push StackState.popInto Instr.keepsEsp
  Instr.onCpu Instr.targets Instr.pushed Cpu.all Cpu.get Cpu.set Cpu.getSeg Cpu.setSeg

end X86
