import Mathlib.Data.Nat.ModEq
import Lkmodel.Memory

/-!
# `UserStack`

`user_stack/src/lib.rs` builds a process's initial user stack from the
kernel side. `sp` is the user-space stack pointer, starting at `base`; `ptr`
is the kernel address that backs `sp`, starting at the `ptr` given to `new`.
`push` lowers `sp` by the size of the data and then down to the data's
alignment, lowers `ptr` by the same distance, and copies the data to `ptr`;
`push_str` pushes a NUL byte and then the string's bytes, and returns `sp`.

`usize` subtraction panics on underflow (a debug build), which the model
returns as `none`; a slice `&[T]` is its bytes with `align_of::<T>()`.

* `push_spec` and `pushStr_spec` — what one call does;
* `run_keeps_pushes` — over any sequence of calls from `UserStack::new`:
  the `ptr`/`sp` relation holds after every call, `sp` never increases, each
  call writes only below the previous `ptr`, and every pushed image still
  reads back at the end;
* `push_aligned` — each push leaves `sp`, and `ptr` too when `ptr` and `base`
  agree modulo the alignment, aligned for the pushed type.
-/

namespace Lkmodel

/-- A slice `&[T]` as `push` sees it: its `size_of_val(data)` bytes and
`align_of::<T>()`, at least 1. -/
structure Slice where
  bytes : List UInt8
  align : Nat
  align_pos : 0 < align

/-- `UserStack`: `_base`, `sp` and `ptr`. -/
structure UserStack where
  base : Nat
  sp : Nat
  ptr : Nat
deriving DecidableEq, Repr

/-- `usize` subtraction, `none` where it underflows. -/
def usizeSub (a b : Nat) : Option Nat := if b ≤ a then some (a - b) else none

/-- `UserStack::new(base, ptr)`. -/
def UserStack.new (base ptr : Nat) : UserStack := ⟨base, base, ptr⟩

/-- `UserStack::push::<T>(data)`, with the kernel memory it writes. The bytes
go to `ptr` whether or not `ptr` is aligned for `T`, which
`slice::from_raw_parts_mut` requires; `push_aligned` says when it is. -/
def UserStack.push (us : UserStack) (mem : Nat → UInt8) (data : Slice) :
    Option (UserStack × (Nat → UInt8)) := do
  let origin := us.sp
  let sp ← usizeSub us.sp data.bytes.length
  let sp ← usizeSub sp (sp % data.align)
  let ptr ← usizeSub us.ptr (origin - sp)
  return (⟨us.base, sp, ptr⟩, writeBytes mem ptr data.bytes)

/-- The `&[b'\0']` that `push_str` pushes first. -/
def UserStack.nul : Slice := ⟨[0], 1, Nat.one_pos⟩

/-- `UserStack::push_str(str)`: the NUL, then the string's bytes; returns `sp`. -/
def UserStack.pushStr (us : UserStack) (mem : Nat → UInt8) (s : List UInt8) :
    Option (UserStack × (Nat → UInt8) × Nat) := do
  let (us, mem) ← us.push mem UserStack.nul
  let (us, mem) ← us.push mem ⟨s, 1, Nat.one_pos⟩
  return (us, mem, us.sp)

/-- A call on the stack. -/
inductive StackOp
  | push (data : Slice)
  | pushStr (s : List UInt8)

/-- The bytes a call leaves at its new `ptr`: the data, or the string and its
NUL. -/
def StackOp.image : StackOp → List UInt8
  | .push data => data.bytes
  | .pushStr s => s ++ [0]

/-- One call, with the `sp` it left: for `push_str`, the value it returned. -/
def UserStack.step (us : UserStack) (mem : Nat → UInt8) :
    StackOp → Option (UserStack × (Nat → UInt8) × Nat)
  | .push data => (us.push mem data).map fun (us, mem) => (us, mem, us.sp)
  | .pushStr s => us.pushStr mem s

/-- A sequence of calls, with the `sp` each left. -/
def UserStack.run (us : UserStack) (mem : Nat → UInt8) :
    List StackOp → Option (UserStack × (Nat → UInt8) × List Nat)
  | [] => some (us, mem, [])
  | op :: ops => do
    let (us, mem, a) ← us.step mem op
    let (us', mem', sps) ← us.run mem ops
    return (us', mem', a :: sps)

/-! ## One call -/

theorem usizeSub_eq_some {a b c : Nat} : usizeSub a b = some c ↔ b ≤ a ∧ c = a - b := by
  unfold usizeSub; split_ifs <;> simp [*, eq_comm]

/-- `push` inverted: `sp` went down by the data's size and then to the data's
alignment, `ptr` went down by as much, and the data was written at the new
`ptr`. -/
theorem push_spec {us us' : UserStack} {mem mem' : Nat → UInt8} {data : Slice}
    (h : us.push mem data = some (us', mem')) :
    us'.base = us.base ∧ data.bytes.length ≤ us.sp ∧
      us'.sp = us.sp - data.bytes.length - (us.sp - data.bytes.length) % data.align ∧
      us'.ptr + (us.sp - us'.sp) = us.ptr ∧ mem' = writeBytes mem us'.ptr data.bytes := by
  simp only [UserStack.push, Option.bind_eq_bind, Option.bind_eq_some, usizeSub_eq_some,
    Option.pure_def, Option.some.injEq] at h
  obtain ⟨sp₁, ⟨h₁, rfl⟩, sp₂, ⟨-, rfl⟩, ptr, ⟨h₃, rfl⟩, h⟩ := h
  cases h
  exact ⟨rfl, h₁, rfl, by dsimp only; omega, rfl⟩

/-- A push lowers `sp` by at least the data's size and leaves it aligned. -/
theorem push_sp {us us' : UserStack} {mem mem' : Nat → UInt8} {data : Slice}
    (h : us.push mem data = some (us', mem')) :
    us'.sp + data.bytes.length ≤ us.sp ∧ us'.sp % data.align = 0 := by
  obtain ⟨-, hlen, hsp, -⟩ := push_spec h
  have := Nat.mod_le (us.sp - data.bytes.length) data.align
  rw [hsp]
  exact ⟨by omega, Nat.sub_mod_eq_zero_of_mod_eq (Nat.mod_mod _ _).symm⟩

/-- A byte push lowers `sp` and `ptr` by exactly the data's size. -/
theorem push_bytes {us us' : UserStack} {mem mem' : Nat → UInt8} {s : List UInt8}
    (h : us.push mem ⟨s, 1, Nat.one_pos⟩ = some (us', mem')) :
    us'.base = us.base ∧ us'.sp + s.length = us.sp ∧ us'.ptr + s.length = us.ptr ∧
      mem' = writeBytes mem us'.ptr s := by
  obtain ⟨hb, hlen, hsp, hptr, hmem⟩ := push_spec h
  simp only [Nat.mod_one, Nat.sub_zero] at hsp
  dsimp only at hlen hsp
  exact ⟨hb, by omega, by omega, hmem⟩

/-- `push_str` inverted: `sp` and `ptr` went down by the string's length plus
one, the return value is the new `sp`, and the string and then its NUL were
written at the new `ptr`. -/
theorem pushStr_spec {us us' : UserStack} {mem mem' : Nat → UInt8} {s : List UInt8} {a : Nat}
    (h : us.pushStr mem s = some (us', mem', a)) :
    us'.base = us.base ∧ a = us'.sp ∧ us'.sp + (s.length + 1) = us.sp ∧
      us'.ptr + (s.length + 1) = us.ptr ∧
      mem' = writeBytes (writeBytes mem (us'.ptr + s.length) [0]) us'.ptr s := by
  simp only [UserStack.pushStr, Option.bind_eq_bind, Option.bind_eq_some,
    Option.pure_def, Option.some.injEq, Prod.mk.injEq] at h
  obtain ⟨⟨us₁, mem₁⟩, h₁, ⟨us₂, mem₂⟩, h₂, rfl, rfl, rfl⟩ := h
  obtain ⟨hb₁, hsp₁, hptr₁, rfl⟩ := push_bytes h₁
  obtain ⟨hb₂, hsp₂, hptr₂, rfl⟩ := push_bytes h₂
  dsimp only at hb₂ hsp₂ hptr₂ ⊢
  simp only [List.length_singleton] at hsp₁ hptr₁
  refine ⟨hb₂.trans hb₁, rfl, by omega, by omega, ?_⟩
  rw [hptr₂]

/-- One call inverted: `sp` went down, `ptr` by as much, the call's image sits
at the new `ptr`, no other byte changed, and the recorded value is the new
`sp`. -/
theorem step_spec {us us' : UserStack} {mem mem' : Nat → UInt8} {a : Nat} :
    ∀ {op : StackOp}, us.step mem op = some (us', mem', a) →
      us'.base = us.base ∧ a = us'.sp ∧ us'.sp ≤ us.sp ∧ us'.ptr + (us.sp - us'.sp) = us.ptr ∧
        op.image.length ≤ us.sp - us'.sp ∧
        (∀ i (hi : i < op.image.length), mem' (us'.ptr + i) = op.image[i]) ∧
        ∀ x, x < us'.ptr ∨ us'.ptr + op.image.length ≤ x → mem' x = mem x
  | .push data, h => by
    simp only [UserStack.step, Option.map_eq_some', Prod.mk.injEq] at h
    obtain ⟨⟨us₁, mem₁⟩, h, rfl, rfl, rfl⟩ := h
    obtain ⟨hb, -, -, hptr, rfl⟩ := push_spec h
    have hsp := (push_sp h).1
    dsimp only
    exact ⟨hb, rfl, by omega, hptr, by simp only [StackOp.image]; omega,
      fun i hi => writeBytes_at _ _ _ hi, fun x hx => writeBytes_of_not_mem hx⟩
  | .pushStr s, h => by
    obtain ⟨hb, rfl, hsp, hptr, rfl⟩ := pushStr_spec h
    refine ⟨hb, rfl, by omega, by omega,
      by simp only [StackOp.image, List.length_append, List.length_singleton]; omega,
      fun i hi => ?_, fun x hx => ?_⟩
    · simp only [StackOp.image, List.length_append, List.length_singleton] at hi
      rcases Nat.lt_succ_iff_lt_or_eq.mp hi with hi | rfl
      · rw [writeBytes_at _ _ _ hi]
        simp [StackOp.image, List.getElem_append_left hi]
      · have hnul := writeBytes_at mem (us'.ptr + s.length) [0] (i := 0) (by simp)
        rw [Nat.add_zero] at hnul
        rw [writeBytes_of_not_mem (by omega), hnul]
        simp [StackOp.image]
    · simp only [StackOp.image, List.length_append, List.length_singleton] at hx
      rw [writeBytes_of_not_mem (by omega), writeBytes_of_not_mem (by simp; omega)]

/-! ## Runs -/

/-- The relation between `sp` and `ptr` from `UserStack::new(base, ptr0)` on:
the stack grows down from `base`, and `ptr` is as far below `ptr0`. -/
structure UserStack.Backs (base ptr0 : Nat) (us : UserStack) : Prop where
  base_eq : us.base = base
  sp_le : us.sp ≤ base
  ptr_eq : us.ptr + (base - us.sp) = ptr0

theorem backs_new (base ptr0 : Nat) : (UserStack.new base ptr0).Backs base ptr0 :=
  ⟨rfl, le_rfl, by simp [UserStack.new]⟩

theorem UserStack.Backs.step {base ptr0 : Nat} {us us' : UserStack} {mem mem' : Nat → UInt8} {a : Nat}
    {op : StackOp} (hb : us.Backs base ptr0) (h : us.step mem op = some (us', mem', a)) :
    us'.Backs base ptr0 ∧ us'.sp ≤ us.sp := by
  obtain ⟨hbase, -, hle, hptr, -⟩ := step_spec h
  obtain ⟨hb₁, hb₂, hb₃⟩ := hb
  exact ⟨⟨hbase.trans hb₁, by omega, by omega⟩, hle⟩

/-- A whole run from a state the relation holds in: it holds at the end, one
`sp` is recorded per call and they never increase, nothing at or above the
starting `ptr` changed, and each call's image reads back at the end at
`ptr0 - (base - a)`, `a` the `sp` recorded for it. -/
theorem run_spec {base ptr0 : Nat} :
    ∀ (ops : List StackOp) {us us'' : UserStack} {mem mem'' : Nat → UInt8} {sps : List Nat},
      us.Backs base ptr0 → us.run mem ops = some (us'', mem'', sps) →
      us''.Backs base ptr0 ∧ sps.length = ops.length ∧ (∀ a ∈ sps, a ≤ us.sp) ∧
        sps.Pairwise (· ≥ ·) ∧ (∀ x, us.ptr ≤ x → mem'' x = mem x) ∧
        ∀ op a, (op, a) ∈ ops.zip sps →
          ∀ i (hi : i < op.image.length), mem'' (ptr0 - (base - a) + i) = op.image[i]
  | [], _, _, _, _, _, hb, h => by
    cases h; exact ⟨hb, rfl, by simp, .nil, fun _ _ => rfl, by simp⟩
  | op :: ops, us, us'', mem, mem'', sps, hb, h => by
    simp only [UserStack.run, Option.bind_eq_bind, Option.bind_eq_some, Option.pure_def,
      Option.some.injEq, Prod.mk.injEq] at h
    obtain ⟨⟨us₁, mem₁, a⟩, h₁, ⟨us₂, mem₂, sps'⟩, h₂, rfl, rfl, rfl⟩ := h
    dsimp only at h₂ ⊢
    obtain ⟨hb₁, hle⟩ := hb.step h₁
    obtain ⟨-, rfl, -, hptr, hlen, himage, hframe⟩ := step_spec h₁
    obtain ⟨hb₂, hlen₂, hsps, hpw, hframe₂, himages⟩ := run_spec ops hb₁ h₂
    have hptr₁ : ptr0 - (base - us₁.sp) = us₁.ptr := by have := hb₁.ptr_eq; omega
    refine ⟨hb₂, by simp [hlen₂], ?_, ?_, fun x hx => ?_, fun op' a' hmem i hi => ?_⟩
    · simp only [List.mem_cons, forall_eq_or_imp]
      exact ⟨hle, fun a ha => (hsps a ha).trans hle⟩
    · exact List.Pairwise.cons (fun a ha => hsps a ha) hpw
    · rw [hframe₂ x (by omega), hframe x (by omega)]
    · rw [List.zip_cons_cons, List.mem_cons, Prod.mk.injEq] at hmem
      rcases hmem with ⟨rfl, rfl⟩ | hmem
      · rw [hptr₁, hframe₂ _ (Nat.le_add_right _ _), himage i hi]
      · exact himages op' a' hmem i hi

/-- **Pushes stay where they were put.** From `UserStack::new(base, ptr0)`:
after every `push` or `push_str`, `ptr = ptr0 - (base - sp)` and `sp` has not
increased, and the call changed only kernel bytes in `[ptr_after, ptr_before)`.
After any run, each call's bytes — the data of a `push`, the string and its
NUL of a `push_str` — read back at `ptr0 - (base - a)`, `a` the `sp` the call
left (the return value of a `push_str`). -/
theorem run_keeps_pushes (base ptr0 : Nat) :
    (UserStack.new base ptr0).Backs base ptr0 ∧
    (∀ (us us' : UserStack) (mem mem' : Nat → UInt8) (op : StackOp) (a : Nat),
      us.Backs base ptr0 → us.step mem op = some (us', mem', a) →
      us'.Backs base ptr0 ∧ us'.ptr = ptr0 - (base - us'.sp) ∧ us'.sp ≤ us.sp ∧
        ∀ x, x < us'.ptr ∨ us.ptr ≤ x → mem' x = mem x) ∧
    (∀ (mem mem' : Nat → UInt8) (ops : List StackOp) (us : UserStack) (sps : List Nat),
      (UserStack.new base ptr0).run mem ops = some (us, mem', sps) →
      sps.length = ops.length ∧ ∀ op a, (op, a) ∈ ops.zip sps →
        ∀ i (hi : i < op.image.length), mem' (ptr0 - (base - a) + i) = op.image[i]) := by
  refine ⟨backs_new base ptr0, fun us us' mem mem' op a hb h => ?_, fun mem mem' ops us sps h => ?_⟩
  · obtain ⟨hb', hle⟩ := hb.step h
    obtain ⟨-, -, -, hptr, hlen, -, hframe⟩ := step_spec h
    have := hb'.ptr_eq
    exact ⟨hb', by omega, hle, fun x hx => hframe x (by omega)⟩
  · obtain ⟨-, hlen, -, -, -, himages⟩ := run_spec ops (backs_new base ptr0) h
    exact ⟨hlen, himages⟩

/-- The theorem at a run of a one-character string and then an 8-byte array of
alignment 8: the string's NUL sits at `0xfff` and its byte at `0xffe`, the
array is pushed down to `0xff0`, six bytes lower than its size alone needs,
and both images read back there. -/
theorem run_keeps_pushes_sample :
    ∃ us mem' sps, (UserStack.new 0x1000 0x8000).run (fun _ => 0)
        [.pushStr [0x61], .push ⟨List.replicate 8 7, 8, by decide⟩] = some (us, mem', sps) ∧
      sps = [0xffe, 0xff0] ∧ sps.length = 2 ∧
      ∀ op a, (op, a) ∈ ([.pushStr [0x61], .push ⟨List.replicate 8 7, 8, by decide⟩] :
          List StackOp).zip sps →
        ∀ i (hi : i < op.image.length), mem' (0x8000 - (0x1000 - a) + i) = op.image[i] := by
  have hsome : ((UserStack.new 0x1000 0x8000).run (fun _ => 0)
      [.pushStr [0x61], .push ⟨List.replicate 8 7, 8, by decide⟩]).isSome := by decide
  obtain ⟨⟨us, mem', sps⟩, h⟩ := Option.isSome_iff_exists.mp hsome
  have hsps : ((UserStack.new 0x1000 0x8000).run (fun _ => 0)
      [.pushStr [0x61], .push ⟨List.replicate 8 7, 8, by decide⟩]).map (fun r => r.2.2) =
        some [0xffe, 0xff0] := by decide
  rw [h] at hsps
  cases hsps
  exact ⟨us, mem', _, h, rfl, (run_keeps_pushes 0x1000 0x8000).2.2 _ _ _ _ _ h⟩

/-- **Pushes keep their alignment.** A push leaves `sp` aligned for the pushed
type, and `ptr` too when `ptr0` and `base` agree modulo that alignment, so the
slice that `push` builds at `ptr` is aligned. -/
theorem push_aligned {base ptr0 : Nat} {us us' : UserStack} {mem mem' : Nat → UInt8}
    {data : Slice} (hb : us.Backs base ptr0) (hal : ptr0 % data.align = base % data.align)
    (h : us.push mem data = some (us', mem')) :
    us'.sp % data.align = 0 ∧ us'.ptr % data.align = 0 := by
  have hsp := (push_sp h).2
  have hstep : us.step mem (.push data) = some (us', mem', us'.sp) := by
    simp [UserStack.step, h]
  have hb' := (hb.step hstep).1
  have hsum : us'.ptr + base = us'.sp + ptr0 := by have := hb'.ptr_eq; have := hb'.sp_le; omega
  have : us'.ptr ≡ us'.sp [MOD data.align] :=
    Nat.ModEq.add_right_cancel hal.symm (hsum ▸ Nat.ModEq.refl _)
  have h0 : us'.ptr ≡ 0 [MOD data.align] :=
    this.trans (by unfold Nat.ModEq; rw [hsp, Nat.zero_mod])
  unfold Nat.ModEq at h0
  exact ⟨hsp, by rwa [Nat.zero_mod] at h0⟩

/-- The theorem at a push of two `u64`s, sixteen bytes at alignment 8. -/
theorem push_aligned_u64 :
    (UserStack.new 0x1000 0x8000).Backs 0x1000 0x8000 ∧ 0x8000 % 8 = 0x1000 % 8 ∧
      ∃ us' mem', (UserStack.new 0x1000 0x8000).push (fun _ => 0)
        ⟨List.replicate 16 7, 8, by decide⟩ = some (us', mem') ∧ us'.sp % 8 = 0 ∧ us'.ptr % 8 = 0 := by
  refine ⟨backs_new _ _, by decide, ?_⟩
  have h : (UserStack.new 0x1000 0x8000).push (fun _ => 0) ⟨List.replicate 16 7, 8, by decide⟩ =
      some (⟨0x1000, 0xff0, 0x7ff0⟩, writeBytes (fun _ => 0) 0x7ff0 (List.replicate 16 7)) := rfl
  exact ⟨_, _, h, push_aligned (backs_new _ _) (by decide) h⟩

end Lkmodel
