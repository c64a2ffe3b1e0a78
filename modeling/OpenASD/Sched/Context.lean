/-
Saving and restoring the registers of a thread (`sched_context_save`, `sched_context_restore` in kernel/sched/sched_asm.S),
instruction by instruction.

The save pushes rbx first, and then takes the word on top of the stack for the return address. It also takes the address of
the return address for the stack pointer of the caller.

Results:
- `save_fields`: the 22 words of the context after a save.
- `restore_spec`: what a restore makes of the words.
- `restore_never_resumes`: a restore goes on at the address in rbx, one word too low on the stack.
-/
import OpenASD.Core.X86

namespace OpenASD.Sched.Asm

open X86

/-! ## The source's code -/

/-- `sched_context_save(ctx)`, with ctx in rdi -/
def schedContextSave : List Instr :=
  [.push .rbx, .mov .rbx .rdi,
    .store 0 .rbx .rax, .load .rax 0 .rsp, .store 8 .rbx .rax, .store 16 .rbx .rcx, .store 24 .rbx .rdx, .store 32 .rbx .rsi,
    .xor .rax .rax, .store 40 .rbx .rax, .store 48 .rbx .rbp, .lea .rax 8 .rsp, .store 56 .rbx .rax,
    .store 64 .rbx .r8, .store 72 .rbx .r9, .store 80 .rbx .r10, .store 88 .rbx .r11, .store 96 .rbx .r12,
    .store 104 .rbx .r13, .store 112 .rbx .r14, .store 120 .rbx .r15,
    .load .rax 0 .rsp, .store 128 .rbx .rax,
    .pushf, .pop .rax, .store 136 .rbx .rax,
    .fromCr3 .rax, .store 144 .rbx .rax,
    .movImm32 .rcx 0xC0000100, .rdmsr, .shl .rdx 32, .or .rax .rdx, .store 152 .rbx .rax,
    .xor .rax .rax, .movwCs .rax, .store 160 .rbx .rax,
    .xor .rax .rax, .movwSs .rax, .store 168 .rbx .rax,
    .pop .rbx, .ret]

/-- `sched_context_restore(ctx)`, with ctx in rdi -/
def schedContextRestore : List Instr :=
  [.load .rax 144 .rdi, .fromCr3 .rcx, .cmp .rax .rcx, .jeOver (.toCr3 .rax),
    .load .rax 152 .rdi, .movImm32 .rcx 0xC0000100, .mov .rdx .rax, .shr .rdx 32, .wrmsr,
    .load .rsp 56 .rdi, .subImm .rsp 40,
    .load .rax 168 .rdi, .store 32 .rsp .rax, .load .rax 56 .rdi, .store 24 .rsp .rax, .load .rax 136 .rdi,
    .store 16 .rsp .rax, .load .rax 160 .rdi, .store 8 .rsp .rax, .load .rax 128 .rdi, .store 0 .rsp .rax,
    .load .rax 0 .rdi, .load .rbx 8 .rdi, .load .rcx 16 .rdi, .load .rdx 24 .rdi, .load .rsi 32 .rdi, .load .rbp 48 .rdi,
    .load .r8 64 .rdi, .load .r9 72 .rdi, .load .r10 80 .rdi, .load .r11 88 .rdi, .load .r12 96 .rdi, .load .r13 104 .rdi,
    .load .r14 112 .rdi, .load .r15 120 .rdi, .load .rdi 40 .rdi, .iret]

/-- IA32_FS_BASE -/
def fsBaseMsr : BitVec 32 := 0xC0000100

variable (undef : Word → Bool)

/-! ## Saving -/

/-- the context that a call in state m leaves, word by word -/
def savedFields (m : Cpu) : List (ℕ × Word) :=
  [(0, m.reg .rax), (8, m.reg .rbx), (16, m.reg .rcx), (24, m.reg .rdx), (32, m.reg .rsi), (40, 0#64), (48, m.reg .rbp),
    (56, m.reg .rsp), (64, m.reg .r8), (72, m.reg .r9), (80, m.reg .r10), (88, m.reg .r11), (96, m.reg .r12),
    (104, m.reg .r13), (112, m.reg .r14), (120, m.reg .r15),
    -- the word on top of the stack is rbx, which has just been pushed, not the return address
    (128, m.reg .rbx),
    (136, flagImage (logicFlags undef m.rflags 0#64)), (144, m.cr3), (152, m.msr fsBaseMsr),
    (160, m.cs.setWidth 64), (168, m.ss.setWidth 64)]

/-- the number of the register as `movl` leaves it in rcx -/
theorem fsBase_ecx : BitVec.setWidth 32 (BitVec.setWidth 64 (0xC0000100 : BitVec 32)) = fsBaseMsr := by decide

theorem movw_zero (s : BitVec 16) : ((0#64 >>> 16 <<< 16) ||| s.setWidth 64 : Word) = s.setWidth 64 := by
  simp

theorem save_fields {m : Cpu} {ctx stk : Word} (hc : m.reg .rdi = ctx) (hs : m.reg .rsp = stk + BitVec.ofNat 64 40)
    (h : Separate ctx 176 stk 48) :
    ∀ f ∈ savedFields undef m, load (run undef m schedContextSave).mem (ctx + BitVec.ofNat 64 f.1) = f.2 := by
  -- one instruction after the other; every load finds what was stored at its address
  simp (disch := decide) only [run, schedContextSave, List.foldl_cons, List.foldl_nil, exec, Cpu.set, Cpu.setMem, Cpu.addr,
    Function.update_apply, reduceCtorEq, if_true, if_false, hc, hs, add_disp, sub_disp, load_store, load_store_disp,
    h.load_left, h.load_right, Nat.reduceAdd, Nat.reduceSub, fsBase_ecx, halves_or, BitVec.xor_self, movw_zero, savedFields,
    List.forall_mem_cons, List.not_mem_nil, false_imp_iff, implies_true, and_self]

/-! ## Restoring -/

/-- what a restore from the context at ctx makes of a processor -/
structure Reloaded (c : Cpu) (ctx : Word) (r : Cpu) : Prop where
  rip : r.rip = load c.mem (ctx + BitVec.ofNat 64 128)
  rflags : r.rflags = load c.mem (ctx + BitVec.ofNat 64 136)
  cs : r.cs = (load c.mem (ctx + BitVec.ofNat 64 160)).setWidth 16
  ss : r.ss = (load c.mem (ctx + BitVec.ofNat 64 168)).setWidth 16
  cr3 : r.cr3 = load c.mem (ctx + BitVec.ofNat 64 144)
  fsBase : r.msr fsBaseMsr = load c.mem (ctx + BitVec.ofNat 64 152)
  rsp : r.reg .rsp = load c.mem (ctx + BitVec.ofNat 64 56)
  rbx : r.reg .rbx = load c.mem (ctx + BitVec.ofNat 64 8)
  rbp : r.reg .rbp = load c.mem (ctx + BitVec.ofNat 64 48)
  r12 : r.reg .r12 = load c.mem (ctx + BitVec.ofNat 64 96)
  r13 : r.reg .r13 = load c.mem (ctx + BitVec.ofNat 64 104)
  r14 : r.reg .r14 = load c.mem (ctx + BitVec.ofNat 64 112)
  r15 : r.reg .r15 = load c.mem (ctx + BitVec.ofNat 64 120)

/-- the first four instructions: CR3 is loaded, unless it has the value already -/
theorem restore_cr3 (c : Cpu) : run undef c (schedContextRestore.take 4) =
      { (c.set .rax (load c.mem (c.addr 144 .rdi))).set .rcx c.cr3 with
        cr3 := load c.mem (c.addr 144 .rdi)
        rflags := subFlags c.rflags (load c.mem (c.addr 144 .rdi)) c.cr3 } := by
  have hzf := subFlags_zf c.rflags (load c.mem (c.addr 144 .rdi)) c.cr3
  simp only [run, schedContextRestore, List.take_succ_cons, List.take_zero, List.foldl_cons, List.foldl_nil, exec, Cpu.set,
    Function.update_self, Function.update_of_ne, ne_eq, reduceCtorEq, not_false_eq_true, hzf]
  by_cases he : load c.mem (c.addr 144 .rdi) = c.cr3
  · rw [if_pos (decide_eq_true he), he]
  · rw [if_neg (by simpa using he)]

theorem restore_spec {c : Cpu} {ctx stk : Word} (hc : c.reg .rdi = ctx)
    (hs : load c.mem (ctx + BitVec.ofNat 64 56) = stk + BitVec.ofNat 64 40) (h : Separate ctx 176 stk 48) :
    Reloaded c ctx (run undef c schedContextRestore) := by
  have hsplit : run undef c schedContextRestore =
      run undef (run undef c (schedContextRestore.take 4)) (schedContextRestore.drop 4) := by
    rw [run, run, run, ← List.foldl_append, List.take_append_drop]
  rw [hsplit, restore_cr3]
  generalize hr : run undef _ (schedContextRestore.drop 4) = r
  simp (disch := decide) only [run, schedContextRestore, List.foldl_cons, List.foldl_nil, exec, Cpu.set, Cpu.setMem, Cpu.addr,
    Function.update_apply, reduceCtorEq, if_true, if_false, hc, hs, add_disp, sub_disp, load_store, load_store_disp,
    h.load_left, Nat.reduceAdd, Nat.reduceSub, List.drop_succ_cons, List.drop_zero, fsBase_ecx,
    halves_append] at hr
  subst hr
  exact ⟨rfl, rfl, rfl, rfl, rfl, Function.update_self fsBaseMsr _ c.msr, hs.symm, rfl, rfl, rfl, rfl, rfl, rfl⟩

/-! ## Save and restore -/

/-- the registers that a call keeps -/
def calleeSaved : List Reg := [.rbx, .rbp, .r12, .r13, .r14, .r15]

/-- r goes on as the call in state m does when it has returned -/
structure Resumes (m r : Cpu) : Prop where
  rip : r.rip = load m.mem (m.reg .rsp)
  rsp : r.reg .rsp = m.reg .rsp + 8#64
  calleeSaved : ∀ g ∈ Asm.calleeSaved, r.reg g = m.reg g
  rflags : r.rflags = m.rflags
  cs : r.cs = m.cs
  ss : r.ss = m.ss
  cr3 : r.cr3 = m.cr3
  fsBase : r.msr fsBaseMsr = m.msr fsBaseMsr

/-- r goes on at the address that rbx held at the call, on the stack of the call, with the arithmetic flags of an `xor` -/
structure Strays (m r : Cpu) : Prop where
  rip : r.rip = m.reg .rbx
  rsp : r.reg .rsp = m.reg .rsp
  calleeSaved : ∀ g ∈ Asm.calleeSaved, r.reg g = m.reg g
  rflags : r.rflags = flagImage (logicFlags undef m.rflags 0#64)
  cs : r.cs = m.cs
  ss : r.ss = m.ss
  cr3 : r.cr3 = m.cr3
  fsBase : r.msr fsBaseMsr = m.msr fsBaseMsr

/-- **The context that was saved is not the caller's.** For every call of `sched_context_save` on a stack that does not touch
the context, and a restore in any later state in which the 176 bytes of the context are as they were: execution goes on at
the address that rbx held at the call, on a stack that still has the return address, with the arithmetic flags of an `xor`;
the rest is as it was. So it never goes on as after the return. -/
theorem restore_never_resumes (m c : Cpu) (h : Separate (m.reg .rdi) 176 (m.reg .rsp - 40#64) 48)
    (hc : c.reg .rdi = m.reg .rdi) (hkeep : ∀ i < 176, c.mem (m.reg .rdi + BitVec.ofNat 64 i) =
      (run undef m schedContextSave).mem (m.reg .rdi + BitVec.ofNat 64 i)) :
    Strays undef m (run undef c schedContextRestore) ∧ ¬ Resumes m (run undef c schedContextRestore) := by
  have hs : m.reg .rsp = m.reg .rsp - 40#64 + BitVec.ofNat 64 40 := (BitVec.sub_add_cancel _ _).symm
  have hsaved := save_fields undef rfl hs h
  have hfield : ∀ f ∈ savedFields undef m, load c.mem (m.reg .rdi + BitVec.ofNat 64 f.1) = f.2 := by
    intro f hf
    rw [← hsaved f hf]
    apply load_congr
    intro i hi
    have hdisp : f.1 + i < 176 := by
      have hle : ∀ f ∈ savedFields undef m, f.1 ≤ 168 := by
        simp [savedFields]
      have := hle f hf
      omega
    rw [add_disp]
    exact hkeep _ hdisp
  simp only [savedFields, List.forall_mem_cons] at hfield
  obtain ⟨-, f8, -, -, -, -, f48, f56, -, -, -, -, f96, f104, f112, f120, f128, f136, f144, f152, f160, f168, -⟩ := hfield
  have hr := restore_spec undef hc (f56.trans hs) h
  have hrsp : (run undef c schedContextRestore).reg .rsp = m.reg .rsp := hr.rsp.trans f56
  refine ⟨⟨hr.rip.trans f128, hrsp, ?_, hr.rflags.trans f136, ?_, ?_, hr.cr3.trans f144, hr.fsBase.trans f152⟩, ?_⟩
  · simp only [calleeSaved, List.forall_mem_cons]
    exact ⟨hr.rbx.trans f8, hr.rbp.trans f48, hr.r12.trans f96, hr.r13.trans f104, hr.r14.trans f112, hr.r15.trans f120,
      fun _ hg => by cases hg⟩
  · rw [hr.cs, f160]
    simp
  · rw [hr.ss, f168]
    simp
  · intro hres
    have hbad := hrsp.symm.trans hres.rsp
    bv_omega

/-- a call of `sched_context_save` from 0x401000, with the stack at 0x9000 and the context at 0x5000 -/
def callState : Cpu where
  reg
    | .rdi => 0x5000
    | .rsp => 0x9000
    | .rbx => 0x1234
    | _ => 0
  rip := 0
  rflags := 0x202
  cs := 8
  ss := 16
  cr3 := 0x1000
  msr := fun _ => 0x7000
  mem := store (fun _ => 0) 0x9000 0x401000

/-- the processor comes back to the context right after the save -/
def switchState : Cpu := (run (fun _ => false) callState schedContextSave).set .rdi 0x5000

theorem callState_separate : Separate (callState.reg .rdi) 176 (callState.reg .rsp - 40#64) 48 := ⟨by decide, by decide⟩

theorem restore_never_resumes_call : Strays (fun _ => false) callState (run (fun _ => false) switchState schedContextRestore) ∧
    ¬ Resumes callState (run (fun _ => false) switchState schedContextRestore) :=
  restore_never_resumes (fun _ => false) callState switchState callState_separate rfl fun _ _ => rfl

/-- the call would return to 0x401000 with the stack at 0x9008, the restore goes to 0x1234 with the stack at 0x9000 -/
theorem resumes_at_rbx : load callState.mem (callState.reg .rsp) = 0x401000 ∧ callState.reg .rsp + 8#64 = 0x9008 ∧
      (run (fun _ => false) switchState schedContextRestore).rip = 0x1234 ∧
      (run (fun _ => false) switchState schedContextRestore).reg .rsp = 0x9000 := by
  decide +kernel

end OpenASD.Sched.Asm
