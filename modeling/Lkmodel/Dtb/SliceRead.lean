import Mathlib.Algebra.Group.Nat.Basic
import Mathlib.Data.List.Basic
import Mathlib.Tactic.SplitIfs

/-!
# Bounds-checked reads from a DTB slice

`util.rs` gives the parser four reads on a byte slice: `read_be_u32`,
`read_be_u64`, `read_bstring0` and `subslice`. Each checks its bounds and
returns `Err(SliceReadError)` when the read would leave the slice.

`usize` arithmetic is modelled on `Nat` with the check of a debug build made
explicit: an addition whose sum reaches `2^64` panics. A panic is a `Fault` of
its own beside a returned `Err`, so "never panics" is a statement about the
model's result.

The bound check of `read_be_u32` is itself such an addition. Within four bytes
of `usize::MAX` it panics instead of returning `Err`
(`readBeU32_panics_near_usize_max`); everywhere else the two integer reads
return the big-endian value of the bytes, or `Err` past the end
(`readBe_spec`). `read_bstring0` returns exactly the NUL-free bytes up to the
first NUL after `pos`, and `Err` when there is none (`readBstring0_spec`).
-/

namespace Lkmodel.Dtb

/-- A byte slice `&[u8]`. -/
abbrev Bytes := List UInt8

/-- One past `usize::MAX` on the kernel's 64-bit targets. -/
def usizeLimit : Nat := 2 ^ 64

/-- `DeviceTreeError` of `lib.rs`. -/
inductive DeviceTreeError
  | badMagicNumber
  | sliceReadError
  | versionNotSupported
  | parseError (pos : Nat)
  | utf8Error
  deriving DecidableEq, Repr

/-- How a call ends when it does not return `Ok`: a returned `Err`, a panic
(an overflowing `usize` addition, an out-of-order slice range, an `unwrap` of
an `Err`), or, for the fuel-bounded parser only, the fuel running out, which
is never a behaviour of the code. -/
inductive Fault
  | err (e : DeviceTreeError)
  | panic
  | outOfFuel
  deriving DecidableEq, Repr

/-- Results compare by value, so a run on a fixed input is checked by `decide`. -/
instance instDecidableEqExcept {ε α : Type} [DecidableEq ε] [DecidableEq α] :
    DecidableEq (Except ε α)
  | .error e, .error e' => decidable_of_iff (e = e') ⟨fun h => h ▸ rfl, Except.error.inj⟩
  | .ok a, .ok a' => decidable_of_iff (a = a') ⟨fun h => h ▸ rfl, Except.ok.inj⟩
  | .error _, .ok _ => isFalse fun h => Except.noConfusion h
  | .ok _, .error _ => isFalse fun h => Except.noConfusion h

/-- `DeviceTreeResult<T>`, with panics made visible. -/
abbrev DeviceTreeResult (α : Type) := Except Fault α

/-! ## Monadic plumbing -/

@[simp] theorem ok_bind {α β : Type} (a : α) (f : α → DeviceTreeResult β) :
    (Except.ok a >>= f) = f a := rfl

@[simp] theorem error_bind {α β : Type} (e : Fault) (f : α → DeviceTreeResult β) :
    (Except.error e >>= f) = Except.error e := rfl

@[simp] theorem pure_eq_ok {α : Type} (a : α) : (pure a : DeviceTreeResult α) = .ok a := rfl

@[simp] theorem throw_eq_error {α : Type} (e : Fault) :
    (throw e : DeviceTreeResult α) = .error e := rfl

/-- `a + b` on `usize` in a debug build. -/
def usizeAdd (a b : Nat) : DeviceTreeResult Nat :=
  if a + b < usizeLimit then .ok (a + b) else .error .panic

@[simp] theorem usizeAdd_of_lt {a b : Nat} (h : a + b < usizeLimit) :
    usizeAdd a b = .ok (a + b) := if_pos h

/-! ## Calls that return

`Returns r Q`: the call returns, `Ok` or `Err` (no panic, and the fuel
sufficed), and `Q` holds of an `Ok` value. It composes along `>>=`, so the
parser's safety follows from one small fact per read. -/

/-- The call returns, and `Q` holds of its `Ok` value. -/
def Returns {α : Type} (r : DeviceTreeResult α) (Q : α → Prop) : Prop :=
  match r with
  | .ok a => Q a
  | .error (.err _) => True
  | .error _ => False

section Returns

variable {α β : Type} {P Q : α → Prop}

@[simp] theorem returns_ok {a : α} : Returns (.ok a) Q ↔ Q a := Iff.rfl

@[simp] theorem returns_err {e : DeviceTreeError} : Returns (.error (.err e)) Q := trivial

theorem Returns.bind {x : DeviceTreeResult α} {f : α → DeviceTreeResult β} {R : β → Prop}
    (hx : Returns x P) (hf : ∀ a, P a → Returns (f a) R) : Returns (x >>= f) R := by
  rcases x with (_ | _ | _) | a
  · trivial
  · exact hx.elim
  · exact hx.elim
  · exact hf a hx

theorem Returns.mono {r : DeviceTreeResult α} (h : Returns r P) (hPQ : ∀ a, P a → Q a) :
    Returns r Q := by
  rcases r with (_ | _ | _) | a
  · trivial
  · exact h.elim
  · exact h.elim
  · exact hPQ a h

theorem Returns.ne_panic {r : DeviceTreeResult α} (h : Returns r Q) : r ≠ .error .panic := by
  rintro rfl; exact h

theorem Returns.ne_outOfFuel {r : DeviceTreeResult α} (h : Returns r Q) :
    r ≠ .error .outOfFuel := by
  rintro rfl; exact h

theorem Returns.of_ok {r : DeviceTreeResult α} {a : α} (h : Returns r Q) (hr : r = .ok a) :
    Q a := by
  subst hr; exact h

theorem Returns.of_error {r : DeviceTreeResult α} {f : Fault} (h : Returns r Q)
    (hr : r = .error f) : ∃ e, f = .err e := by
  subst hr; rcases f with e | _ | _
  · exact ⟨e, rfl⟩
  · exact h.elim
  · exact h.elim

end Returns

theorem returns_usizeAdd {a b : Nat} (h : a + b < usizeLimit) :
    Returns (usizeAdd a b) (· = a + b) := by
  simp [usizeAdd_of_lt h]

/-! ## The four reads -/

/-- `read_be_u32`: the big-endian `u32` at `pos`. The check `pos+4 <= len`
is the first `usize` addition. -/
def readBeU32 (s : Bytes) (pos : Nat) : DeviceTreeResult UInt32 :=
  if pos + 4 < usizeLimit then
    if h : pos + 4 ≤ s.length then
      .ok (s[pos].toUInt32 <<< 24 ||| s[pos + 1].toUInt32 <<< 16 |||
        s[pos + 2].toUInt32 <<< 8 ||| s[pos + 3].toUInt32)
    else .error (.err .sliceReadError)
  else .error .panic

/-- `read_be_u64`: the high word at `pos`, the low word at `pos + 4`. -/
def readBeU64 (s : Bytes) (pos : Nat) : DeviceTreeResult UInt64 := do
  let hi ← readBeU32 s pos
  let lo ← readBeU32 s (← usizeAdd pos 4)
  return hi.toUInt64 <<< 32 ||| lo.toUInt64

/-- The bytes before the first NUL, if the list has one. -/
def untilNul : Bytes → Option Bytes
  | [] => none
  | b :: bs => if b = 0 then some [] else (untilNul bs).map (b :: ·)

/-- `read_bstring0`: the bytes from `pos` up to the first NUL, which the scan
must meet before the end of the slice. -/
def readBstring0 (s : Bytes) (pos : Nat) : DeviceTreeResult Bytes :=
  match untilNul (s.drop pos) with
  | some str => .ok str
  | none => .error (.err .sliceReadError)

/-- `subslice`: `&self[start..end]`, refused unless `end < len`; the range
index panics when `start > end`. -/
def subslice (s : Bytes) (start stop : Nat) : DeviceTreeResult Bytes :=
  if stop < s.length then
    if start ≤ stop then .ok ((s.drop start).take (stop - start)) else .error .panic
  else .error (.err .sliceReadError)

/-- Within four bytes of `usize::MAX` the bound check overflows, so the read
panics where a position past the end of the slice should give `Err`. -/
theorem readBeU32_panics_near_usize_max :
    readBeU32 [0, 0, 0, 0] (2 ^ 64 - 1) = .error .panic := by
  decide

/-! ## Big-endian values -/

/-- The big-endian value of a byte string. -/
def beNat (bs : Bytes) : Nat := bs.foldl (fun acc b => acc * 256 + b.toNat) 0

/-- The four big-endian bytes of `n` (taken mod `2^32`), as the DTB stores a
`u32`. -/
def be32 (n : Nat) : Bytes :=
  [(n / 2 ^ 24).toUInt8, (n / 2 ^ 16).toUInt8, (n / 2 ^ 8).toUInt8, n.toUInt8]

private theorem shiftLeft_lor_of_lt {k a b : Nat} (hb : b < 2 ^ k) :
    a <<< k ||| b = a * 2 ^ k + b := by
  rw [Nat.shiftLeft_eq, Nat.mul_comm, ← Nat.mul_add_lt_is_or hb]

/-- The word `read_be_u32` assembles from four bytes. -/
theorem toNat_word32 (a b c d : UInt8) :
    (a.toUInt32 <<< 24 ||| b.toUInt32 <<< 16 ||| c.toUInt32 <<< 8 ||| d.toUInt32).toNat =
      a.toNat * 2 ^ 24 + b.toNat * 2 ^ 16 + c.toNat * 2 ^ 8 + d.toNat := by
  have ha := a.toNat_lt_size
  have hb := b.toNat_lt_size
  have hc := c.toNat_lt_size
  have hd := d.toNat_lt_size
  simp only [UInt8.size] at ha hb hc hd
  show ((a.toUInt32.toBitVec <<< (24 : BitVec 32)) ||| (b.toUInt32.toBitVec <<< (16 : BitVec 32)) |||
    (c.toUInt32.toBitVec <<< (8 : BitVec 32)) ||| d.toUInt32.toBitVec).toNat = _
  simp only [BitVec.toNat_or, BitVec.shiftLeft_eq', BitVec.toNat_shiftLeft]
  show (a.toNat <<< 24 % 2 ^ 32 ||| b.toNat <<< 16 % 2 ^ 32 ||| c.toNat <<< 8 % 2 ^ 32 |||
    d.toNat) = _
  simp only [Nat.shiftLeft_eq]
  rw [Nat.mod_eq_of_lt (by omega), Nat.mod_eq_of_lt (by omega), Nat.mod_eq_of_lt (by omega),
    Nat.or_assoc, Nat.or_assoc, ← Nat.shiftLeft_eq c.toNat,
    shiftLeft_lor_of_lt (by omega : d.toNat < 2 ^ 8), ← Nat.shiftLeft_eq b.toNat,
    shiftLeft_lor_of_lt (by omega : c.toNat * 2 ^ 8 + d.toNat < 2 ^ 16),
    ← Nat.shiftLeft_eq a.toNat,
    shiftLeft_lor_of_lt (by omega : b.toNat * 2 ^ 16 + (c.toNat * 2 ^ 8 + d.toNat) < 2 ^ 24)]
  omega


theorem toNat_toUInt8 (n : Nat) : n.toUInt8.toNat = n % 256 := by
  simp [Nat.toUInt8, UInt8.ofNat, UInt8.toNat, BitVec.toNat_ofNat]

theorem beNat_append (l₁ l₂ : Bytes) : beNat (l₁ ++ l₂) = beNat l₁ * 256 ^ l₂.length + beNat l₂ := by
  suffices ∀ acc, l₂.foldl (fun acc b => acc * 256 + b.toNat) acc =
      acc * 256 ^ l₂.length + beNat l₂ by simpa [beNat, List.foldl_append] using this _
  induction l₂ with
  | nil => simp [beNat]
  | cons b bs ih =>
    intro acc
    simp only [beNat, List.foldl_cons, Nat.zero_mul, Nat.zero_add] at ih ⊢
    rw [ih, ih b.toNat, List.length_cons, Nat.pow_succ, Nat.add_mul, Nat.mul_assoc,
      Nat.mul_comm 256, Nat.add_assoc]

/-! ## Bytes at a position -/

/-- The bytes `l` stand in `s` from position `p`. -/
def BytesAt (s : Bytes) (p : Nat) (l : Bytes) : Prop := p ≤ s.length ∧ l <+: s.drop p

instance (s : Bytes) (p : Nat) (l : Bytes) : Decidable (BytesAt s p l) :=
  inferInstanceAs (Decidable (_ ∧ _))

theorem BytesAt.le_length {s l : Bytes} {p : Nat} (h : BytesAt s p l) :
    p + l.length ≤ s.length := by
  have := h.2.length_le
  simp only [List.length_drop] at this
  have := h.1
  omega

theorem BytesAt.getElem? {s l : Bytes} {p : Nat} (h : BytesAt s p l) {i : Nat}
    (hi : i < l.length) : s[p + i]? = l[i]? := by
  obtain ⟨t, ht⟩ := h.2
  rw [← List.getElem?_drop, ← ht, List.getElem?_append_left hi]

theorem BytesAt.getElem {s l : Bytes} {p : Nat} (h : BytesAt s p l) {i : Nat}
    (hi : i < l.length) (hs : p + i < s.length) : s[p + i] = l[i] := by
  have := h.getElem? hi
  rw [List.getElem?_eq_getElem hs, List.getElem?_eq_getElem hi] at this
  exact Option.some.inj this

/-- The bytes of the slice itself stand at every position inside it. -/
theorem bytesAt_take_drop (s : Bytes) {p : Nat} (hp : p ≤ s.length) (k : Nat) :
    BytesAt s p ((s.drop p).take k) :=
  ⟨hp, List.take_prefix _ _⟩

/-! ## What the reads return -/

theorem readBeU32_of_bytesAt {s : Bytes} {p : Nat} {a b c d : UInt8}
    (h : BytesAt s p [a, b, c, d]) (hp : p + 4 < usizeLimit) :
    readBeU32 s p = .ok (a.toUInt32 <<< 24 ||| b.toUInt32 <<< 16 |||
      c.toUInt32 <<< 8 ||| d.toUInt32) := by
  have hl : p + 4 ≤ s.length := h.le_length
  have e0 : s[p] = a := by simpa using h.getElem (i := 0) (by simp) (by omega)
  have e1 : s[p + 1] = b := h.getElem (i := 1) (by simp) (by omega)
  have e2 : s[p + 2] = c := h.getElem (i := 2) (by simp) (by omega)
  have e3 : s[p + 3] = d := h.getElem (i := 3) (by simp) (by omega)
  simp only [readBeU32, if_pos hp, dif_pos hl, e0, e1, e2, e3]

theorem BytesAt.le_length_be32 {s : Bytes} {p n : Nat} (h : BytesAt s p (be32 n)) :
    p + 4 ≤ s.length :=
  h.le_length

/-- Reading where the DTB stores the `u32` `n` gives `n` back. -/
theorem readBeU32_be32 {s : Bytes} {p n : Nat} (h : BytesAt s p (be32 n)) (hn : n < 2 ^ 32)
    (hp : p + 4 < usizeLimit) : readBeU32 s p = .ok (UInt32.ofNat n) := by
  rw [readBeU32_of_bytesAt h hp]
  congr 1
  apply UInt32.toNat.inj
  rw [toNat_word32, UInt32.toNat_ofNat_of_lt hn]
  simp only [toNat_toUInt8]
  omega

/-- The four bytes from `pos` of a slice that holds them. -/
theorem exists_take_four {s : Bytes} {pos : Nat} (h : pos + 4 ≤ s.length) :
    ∃ a b c d, (s.drop pos).take 4 = [a, b, c, d] := by
  have hlen : ((s.drop pos).take 4).length = 4 := by simp; omega
  match (s.drop pos).take 4, hlen with
  | [a, b, c, d], _ => exact ⟨a, b, c, d, rfl⟩

theorem readBeU32_ok_beNat (s : Bytes) {pos : Nat} (hl : pos + 4 < usizeLimit)
    (h : pos + 4 ≤ s.length) :
    ∃ x, readBeU32 s pos = .ok x ∧ x.toNat = beNat ((s.drop pos).take 4) := by
  obtain ⟨a, b, c, d, hq⟩ := exists_take_four h
  have hb := bytesAt_take_drop s (by omega : pos ≤ s.length) 4
  rw [hq] at hb
  refine ⟨_, readBeU32_of_bytesAt hb hl, ?_⟩
  rw [toNat_word32, hq]
  simp only [beNat, List.foldl_cons, List.foldl_nil]
  omega

theorem readBeU32_short {s : Bytes} {p : Nat} (hp : p + 4 < usizeLimit)
    (hl : ¬ p + 4 ≤ s.length) : readBeU32 s p = .error (.err .sliceReadError) := by
  simp only [readBeU32, if_pos hp, dif_neg hl]

theorem readBeU32_cases (s : Bytes) {p : Nat} (hp : p + 4 < usizeLimit) :
    (∃ v, readBeU32 s p = .ok v ∧ p + 4 ≤ s.length) ∨
      readBeU32 s p = .error (.err .sliceReadError) := by
  by_cases hl : p + 4 ≤ s.length
  · exact .inl ⟨_, by simp only [readBeU32, if_pos hp, dif_pos hl]; rfl, hl⟩
  · exact .inr (readBeU32_short hp hl)

theorem readBeU32_ok_le {s : Bytes} {p : Nat} {v : UInt32} (h : readBeU32 s p = .ok v) :
    p + 4 ≤ s.length := by
  unfold readBeU32 at h
  split_ifs at h with _ hl
  exact hl

theorem untilNul_append {str : Bytes} (hs : 0 ∉ str) (rest : Bytes) :
    untilNul (str ++ 0 :: rest) = some str := by
  induction str with
  | nil => simp [untilNul]
  | cons b bs ih =>
    simp only [List.mem_cons, not_or] at hs
    simp [untilNul, Ne.symm hs.1, ih hs.2]

/-- The scan finds a string exactly when the bytes are that NUL-free string,
a NUL, and anything after. -/
theorem untilNul_eq_some_iff {bs str : Bytes} :
    untilNul bs = some str ↔ 0 ∉ str ∧ ∃ rest, bs = str ++ 0 :: rest := by
  refine ⟨fun h => ?_, fun ⟨hs, rest, h⟩ => h ▸ untilNul_append hs rest⟩
  induction bs generalizing str with
  | nil => simp [untilNul] at h
  | cons b bs ih =>
    simp only [untilNul] at h
    split_ifs at h with hb
    · cases h
      exact ⟨List.not_mem_nil _, bs, by rw [hb]; rfl⟩
    · obtain ⟨t, ht, rfl⟩ := Option.map_eq_some'.mp h
      obtain ⟨hs, rest, rfl⟩ := ih ht
      exact ⟨List.not_mem_cons_of_ne_of_not_mem (Ne.symm hb) hs, rest, rfl⟩

theorem untilNul_eq_none_iff {bs : Bytes} : untilNul bs = none ↔ 0 ∉ bs := by
  induction bs with
  | nil => simp [untilNul]
  | cons b bs ih =>
    by_cases hb : b = 0
    · simp [untilNul, hb]
    · simp [untilNul, hb, ih, Ne.symm hb]

theorem untilNul_length {bs str : Bytes} (h : untilNul bs = some str) :
    str.length < bs.length := by
  obtain ⟨-, rest, rfl⟩ := untilNul_eq_some_iff.mp h
  simp only [List.length_append, List.length_cons]
  omega

theorem readBstring0_of_bytesAt {s str : Bytes} {p : Nat} (h : BytesAt s p (str ++ [0]))
    (hs : 0 ∉ str) : readBstring0 s p = .ok str := by
  obtain ⟨-, t, ht⟩ := h
  simp [readBstring0, ← ht, untilNul_append hs]

/-- **`read_bstring0`.** The read returns the bytes from `pos` up to the first
NUL after it, which are NUL-free and followed by that NUL, and fails with
`SliceReadError` exactly when no NUL lies at or after `pos`. -/
theorem readBstring0_spec (s : Bytes) (pos : Nat) :
    (∀ str, readBstring0 s pos = .ok str ↔ 0 ∉ str ∧ ∃ rest, s.drop pos = str ++ 0 :: rest) ∧
    (readBstring0 s pos = .error (.err .sliceReadError) ↔ 0 ∉ s.drop pos) := by
  unfold readBstring0
  rcases h : untilNul (s.drop pos) with _ | t <;>
    exact ⟨fun str => by rw [← untilNul_eq_some_iff, h]; simp,
      by rw [← untilNul_eq_none_iff, h]; simp⟩

theorem readBstring0_cases (s : Bytes) (p : Nat) :
    (∃ str, readBstring0 s p = .ok str ∧ p + str.length < s.length) ∨
      readBstring0 s p = .error (.err .sliceReadError) := by
  unfold readBstring0
  split
  · rename_i str h
    have := untilNul_length h
    simp only [List.length_drop] at this
    exact .inl ⟨str, rfl, by omega⟩
  · exact .inr rfl

theorem subslice_of_bytesAt {s v : Bytes} {p : Nat} (h : BytesAt s p v)
    (hlt : p + v.length < s.length) : subslice s p (p + v.length) = .ok v := by
  obtain ⟨-, t, ht⟩ := h
  simp [subslice, hlt, ← ht]

theorem subslice_cases (s : Bytes) {start stop : Nat} (h : start ≤ stop) :
    (subslice s start stop = .ok ((s.drop start).take (stop - start)) ∧ stop < s.length) ∨
      subslice s start stop = .error (.err .sliceReadError) := by
  by_cases hl : stop < s.length
  · exact .inl ⟨by simp [subslice, hl, h], hl⟩
  · exact .inr (by simp [subslice, hl])

theorem returns_readBeU32 (s : Bytes) {p : Nat} (hp : p + 4 < usizeLimit) :
    Returns (readBeU32 s p) (fun _ => p + 4 ≤ s.length) := by
  rcases readBeU32_cases s hp with ⟨v, h, hl⟩ | h <;> simp [h, *]

theorem returns_readBstring0 (s : Bytes) (p : Nat) :
    Returns (readBstring0 s p) (fun str => p + str.length < s.length) := by
  rcases readBstring0_cases s p with ⟨str, h, hl⟩ | h <;> simp [h, *]

theorem returns_subslice (s : Bytes) {start stop : Nat} (h : start ≤ stop) :
    Returns (subslice s start stop) (fun _ => stop < s.length) := by
  rcases subslice_cases s h with ⟨h, hl⟩ | h <;> simp [h, *]

/-! ## The integer reads, whole -/

theorem toNat_word64 (hi lo : UInt32) :
    (hi.toUInt64 <<< 32 ||| lo.toUInt64).toNat = hi.toNat * 2 ^ 32 + lo.toNat := by
  have hh := hi.toNat_lt_size
  have hl := lo.toNat_lt_size
  simp only [UInt32.size] at hh hl
  show ((hi.toUInt64.toBitVec <<< (32 : BitVec 64)) ||| lo.toUInt64.toBitVec).toNat = _
  simp only [BitVec.toNat_or, BitVec.shiftLeft_eq', BitVec.toNat_shiftLeft]
  show (hi.toNat <<< 32 % 2 ^ 64 ||| lo.toNat) = _
  rw [Nat.shiftLeft_eq, Nat.mod_eq_of_lt (by omega), Nat.mul_comm,
    ← Nat.mul_add_lt_is_or (by omega)]

/-- **`read_be_u32` and `read_be_u64`.** Wherever the bound checks do not
overflow, the two reads return the big-endian value of the four (eight)
bytes at `pos` when they lie inside the slice, and `Err(SliceReadError)`
otherwise. -/
theorem readBe_spec (s : Bytes) (pos : Nat) :
    (pos + 4 < usizeLimit → (readBeU32 s pos).map UInt32.toNat =
      if pos + 4 ≤ s.length then .ok (beNat ((s.drop pos).take 4))
      else .error (.err .sliceReadError)) ∧
    (pos + 8 < usizeLimit → (readBeU64 s pos).map UInt64.toNat =
      if pos + 8 ≤ s.length then .ok (beNat ((s.drop pos).take 8))
      else .error (.err .sliceReadError)) := by
  constructor
  · intro hl
    by_cases h : pos + 4 ≤ s.length
    · obtain ⟨x, hx, hv⟩ := readBeU32_ok_beNat s hl h
      simp [hx, hv, h, Except.map]
    · simp [readBeU32_short hl h, h, Except.map]
  · intro hl
    have hadd := usizeAdd_of_lt (show pos + 4 < usizeLimit by omega)
    by_cases h8 : pos + 8 ≤ s.length
    · obtain ⟨hi, hhi, hvi⟩ := readBeU32_ok_beNat s (by omega) (by omega : pos + 4 ≤ s.length)
      obtain ⟨lo, hlo, hvl⟩ := readBeU32_ok_beNat s (show pos + 4 + 4 < usizeLimit by omega)
        (by omega)
      have split : (s.drop pos).take 8 = (s.drop pos).take 4 ++ (s.drop (pos + 4)).take 4 := by
        rw [show 8 = 4 + 4 from rfl, List.take_add, List.drop_drop, Nat.add_comm]
      have hlen : ((s.drop (pos + 4)).take 4).length = 4 := by
        simp only [List.length_take, List.length_drop]; omega
      have hpow : (256 : Nat) ^ 4 = 2 ^ 32 := rfl
      simp only [readBeU64, hhi, ok_bind, hadd, hlo, pure_eq_ok, Except.map, toNat_word64, hvi,
        hvl, if_pos h8, split, beNat_append, hlen, hpow]
    · have hlo := readBeU32_short (s := s) (show pos + 4 + 4 < usizeLimit by omega) (by omega)
      rcases readBeU32_cases s (show pos + 4 < usizeLimit by omega) with ⟨hi, hhi, -⟩ | hhi <;>
        simp [readBeU64, hhi, hadd, hlo, h8, Except.map]

end Lkmodel.Dtb
