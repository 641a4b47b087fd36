import Jos64.Loop.Core
import Jos64.Store.Dword

/-!
# A 32-bit machine

Some instructions of a 32-bit x86 processor without paging, in the order of
operands that the assembler has: the source first.  A program is run from its
instruction at `pc` until `pc` is behind its last one.  Each step of a repeated
string instruction is a step of the run.
-/

namespace Jos64.Machine

open Loop Store

inductive Reg where
  | eax
  | ecx
  | edx
  | ebx
  | esp
  | ebp
  | esi
  | edi
  deriving DecidableEq

inductive Instr where
  | movlImm (value : BitVec 32) (dst : Reg)
  | movlStore (src : Reg) (disp : BitVec 32) (base : Reg)
  | xorl (src dst : Reg)
  | orlImm (value : BitVec 32) (dst : Reg)
  | addlImm (value : BitVec 32) (dst : Reg)
  | sublImm (value : BitVec 32) (dst : Reg)
  | cmplImm (value : BitVec 32) (dst : Reg)
  | repStosl
  | jne (target : Nat)

/-- The registers, the zero and the direction flag, and the memory. -/
structure State where
  pc : Nat
  regs : Reg → BitVec 32
  zf : Bool
  df : Bool
  mem : Nat → BitVec 8

namespace State

def next (s : State) : State :=
  { s with pc := s.pc + 1 }

def set (s : State) (dst : Reg) (value : BitVec 32) : State :=
  { s with regs := Function.update s.regs dst value }

/-- The result of an operation, which sets the flag. -/
def result (s : State) (dst : Reg) (value : BitVec 32) : State :=
  { s.set dst value with zf := value = 0 }

/-- A double word is stored.  It has to lie in the 32-bit addresses. -/
def store (s : State) (address value : BitVec 32) : Exec State :=
  if address.toNat + 4 ≤ 2 ^ 32 then
    .done { s with mem := putDword s.mem address.toNat value }
  else .fault

@[simp]
theorem next_mem (s : State) : s.next.mem = s.mem :=
  rfl

@[simp]
theorem set_mem (s : State) (dst : Reg) (value : BitVec 32) : (s.set dst value).mem = s.mem :=
  rfl

@[simp]
theorem result_mem (s : State) (dst : Reg) (value : BitVec 32) :
    (s.result dst value).mem = s.mem :=
  rfl

/-- The distance to the next double word. -/
def stride (s : State) : BitVec 32 :=
  if s.df then -4 else 4

end State

/-- A step of an instruction. -/
def Instr.exec (s : State) : Instr → Exec State
  | movlImm value dst => .done (s.set dst value).next
  | movlStore src disp base =>
      (s.store (s.regs base + disp) (s.regs src)).bind fun s => .done s.next
  | xorl src dst => .done (s.result dst (s.regs dst ^^^ s.regs src)).next
  | orlImm value dst => .done (s.result dst (s.regs dst ||| value)).next
  | addlImm value dst => .done (s.result dst (s.regs dst + value)).next
  | sublImm value dst => .done (s.result dst (s.regs dst - value)).next
  | cmplImm value dst => .done { s.next with zf := s.regs dst = value }
  | repStosl =>
      if s.regs .ecx = 0 then .done s.next
      else
        (s.store (s.regs .edi) (s.regs .eax)).bind fun s =>
          .done ((s.set .edi (s.regs .edi + s.stride)).set .ecx (s.regs .ecx - 1))
  | jne target => .done (if s.zf then s.next else { s with pc := target })

/-- A step of a program. -/
def body (program : List Instr) (s : State) : Exec (Next State State) :=
  match program[s.pc]? with
  | none => .done (.stop s)
  | some instr => (instr.exec s).bind fun s => .done (.again s)

/-- A program is run to its end. -/
def run (program : List Instr) (fuel : Nat) (s : State) : Exec State :=
  loop (body program) fuel s

variable {program : List Instr} {s t : State}

/-! ## Rules -/

theorem reached_step {instr : Instr} (fetched : program[s.pc]? = some instr)
    (ended : instr.exec s = .done t) : Reached (body program) s t := by
  refine .again .refl ?_
  rw [body, fetched]
  dsimp only
  rw [ended, Exec.done_bind]

/-- A program that comes to its end ends. -/
theorem run_of_reached (reached : Reached (body program) s t) (behind : t.pc = program.length) :
    ∃ bound, ∀ fuel, bound ≤ fuel → run program fuel s = .done t := by
  apply reached.loop_done
  rw [body, List.getElem?_eq_none behind.ge]

/-- The next instruction follows in one step. -/
def Instr.isPlain : Instr → Bool
  | repStosl | jne _ => false
  | _ => true

/-- The instructions, one after the other. -/
def straight : List Instr → State → Exec State
  | [], s => .done s
  | instr :: block, s => (instr.exec s).bind (straight block)

theorem Instr.exec_pc {instr : Instr} (plain : instr.isPlain) (ended : instr.exec s = .done t) :
    t.pc = s.pc + 1 := by
  cases instr with
  | repStosl | jne => cases plain
  | movlStore src disp base =>
      obtain ⟨middle, stored, rest⟩ := Exec.bind_eq_done ended
      rw [State.store] at stored
      split at stored
      · cases stored
        cases rest
        rfl
      · cases stored
  | _ =>
      cases ended
      rfl

/-- The rule for instructions without a jump. -/
theorem reached_straight {front block back : List Instr}
    (split : program = front ++ (block ++ back)) (plain : block.all Instr.isPlain)
    (here : s.pc = front.length) (ended : straight block s = .done t) :
    Reached (body program) s t ∧ t.pc = front.length + block.length := by
  induction block generalizing front s with
  | nil =>
      cases ended
      exact ⟨.refl, here⟩
  | cons instr block ih =>
      obtain ⟨middle, first, rest⟩ := Exec.bind_eq_done ended
      have fetched : program[s.pc]? = some instr := by
        rw [split, here, List.getElem?_append_right le_rfl, Nat.sub_self]
        rfl
      rw [List.all_cons, Bool.and_eq_true] at plain
      have moved := Instr.exec_pc plain.1 first
      have split' : program = (front ++ [instr]) ++ (block ++ back) := by
        rw [split, List.append_assoc]
        rfl
      have here' : middle.pc = (front ++ [instr]).length := by
        rw [moved, here, List.length_append]
        rfl
      obtain ⟨later, behind⟩ := ih split' plain.2 here' rest
      refine ⟨(reached_step fetched first).trans later, ?_⟩
      rw [behind, List.length_append, List.length_singleton, List.length_cons]
      omega

/-- The instructions, one after the other, lead to a state that satisfies the
condition. -/
def Ends (block : List Instr) (s : State) (post : State → Prop) : Prop :=
  ∃ t, straight block s = .done t ∧ post t

section

variable {block : List Instr} {post : State → Prop}

theorem ends_nil (holds : post s) : Ends [] s post :=
  ⟨s, rfl, holds⟩

theorem Ends.cons {instr : Instr} (ended : instr.exec s = .done t) (rest : Ends block t post) :
    Ends (instr :: block) s post := by
  obtain ⟨last, run, holds⟩ := rest
  refine ⟨last, ?_, holds⟩
  rw [straight, ended, Exec.done_bind, run]

/-- A double word is stored, and nothing else changes. -/
theorem Ends.store {src base : Reg} {disp : BitVec 32} (address value : BitVec 32)
    (address_eq : s.regs base + disp = address) (value_eq : s.regs src = value)
    (room : address.toNat + 4 ≤ 2 ^ 32)
    (rest : Ends block (State.next { s with mem := putDword s.mem address.toNat value }) post) :
    Ends (.movlStore src disp base :: block) s post := by
  refine rest.cons ?_
  rw [Instr.exec, address_eq, value_eq, State.store, if_pos room, Exec.done_bind]

theorem Ends.reached {front back : List Instr} (ends : Ends block s post)
    (split : program = front ++ (block ++ back)) (plain : block.all Instr.isPlain)
    (here : s.pc = front.length) :
    ∃ t, Reached (body program) s t ∧ t.pc = front.length + block.length ∧ post t := by
  obtain ⟨t, ended, holds⟩ := ends
  obtain ⟨reached, behind⟩ := reached_straight split plain here ended
  exact ⟨t, reached, behind, holds⟩

end

/-! ### Filling a table -/

theorem exec_repStosl (more : s.regs .ecx ≠ 0) (room : (s.regs .edi).toNat + 4 ≤ 2 ^ 32) :
    Instr.exec s .repStosl =
      .done ((({ s with mem := putDword s.mem (s.regs .edi).toNat (s.regs .eax) }).set .edi
        (s.regs .edi + s.stride)).set .ecx (s.regs .ecx - 1)) := by
  rw [Instr.exec, if_neg more, State.store, if_pos room]
  rfl

/-- What holds after so many steps of `rep stosl`. -/
structure Filling (s : State) (k : Nat) (t : State) : Prop where
  pc : t.pc = s.pc
  df : t.df = false
  eax : t.regs .eax = s.regs .eax
  edi : t.regs .edi = BitVec.ofNat 32 ((s.regs .edi).toNat + 4 * k)
  ecx : t.regs .ecx = BitVec.ofNat 32 ((s.regs .ecx).toNat - k)
  laid : Laid t.mem (s.regs .edi).toNat k fun _ => s.regs .eax

theorem Filling.step (fetched : program[s.pc]? = some .repStosl)
    (fits : (s.regs .edi).toNat + 4 * (s.regs .ecx).toNat ≤ 2 ^ 32) {k : Nat}
    (inside : k < (s.regs .ecx).toNat) (filling : Filling s k t) :
    ∃ t', Reached (body program) t t' ∧ Filling s (k + 1) t' := by
  have small := (s.regs .ecx).isLt
  have edi_eq : (t.regs .edi).toNat = (s.regs .edi).toNat + 4 * k := by
    rw [filling.edi, BitVec.toNat_ofNat, Nat.mod_eq_of_lt (by omega)]
  have ecx_eq : (t.regs .ecx).toNat = (s.regs .ecx).toNat - k := by
    rw [filling.ecx, BitVec.toNat_ofNat, Nat.mod_eq_of_lt (by omega)]
  have more : t.regs .ecx ≠ 0 := by
    intro none
    rw [none] at ecx_eq
    exact absurd ecx_eq (Nat.sub_pos_of_lt inside).ne
  have room : (t.regs .edi).toNat + 4 ≤ 2 ^ 32 := by omega
  have fetched' : program[t.pc]? = some .repStosl := filling.pc ▸ fetched
  refine ⟨_, reached_step fetched' (exec_repStosl more room), filling.pc, filling.df,
    filling.eax, ?_, ?_, ?_⟩
  · change t.regs .edi + t.stride = _
    rw [State.stride, filling.df, filling.edi, if_neg Bool.false_ne_true]
    bv_omega
  · change t.regs .ecx - 1 = _
    rw [filling.ecx]
    bv_omega
  · change Laid (putDword t.mem (t.regs .edi).toNat (t.regs .eax)) _ _ _
    rw [edi_eq, filling.eax]
    exact filling.laid.succ

/-- The rule for filling a table. -/
theorem reached_repStosl (fetched : program[s.pc]? = some .repStosl) (forward : s.df = false)
    (fits : (s.regs .edi).toNat + 4 * (s.regs .ecx).toNat ≤ 2 ^ 32) :
    ∃ t, Reached (body program) s t ∧ t.pc = s.pc + 1 ∧
      Laid t.mem (s.regs .edi).toNat (s.regs .ecx).toNat fun _ => s.regs .eax := by
  have init : Filling s 0 s := by
    refine ⟨rfl, forward, rfl, ?_, ?_, fun index inside => absurd inside (Nat.not_lt_zero index)⟩
    · rw [Nat.mul_zero, Nat.add_zero, BitVec.ofNat_toNat, BitVec.setWidth_eq]
    · rw [Nat.sub_zero, BitVec.ofNat_toNat, BitVec.setWidth_eq]
  obtain ⟨t, reached, filling⟩ := Reached.counted (Filling s) init fun k inside middle filling =>
    filling.step fetched fits inside
  have fetched' : program[t.pc]? = some .repStosl := filling.pc ▸ fetched
  have none : t.regs .ecx = 0 := by
    rw [filling.ecx, Nat.sub_self]
    rfl
  have last : Instr.exec t .repStosl = .done t.next := by
    rw [Instr.exec, if_pos none]
  exact ⟨t.next, reached.trans (reached_step fetched' last), congrArg (· + 1) filling.pc,
    filling.laid⟩

end Jos64.Machine
