import Mathlib.Algebra.Group.Nat.Basic
import Mathlib.Data.List.Basic

/-!
# `BTreeMap<usize, V>`

The two maps of `MmStruct` (`vmas` and the `mapped` ledger) are
`alloc::collections::BTreeMap`s keyed by `usize`. What the crate relies on is
their interface, not their node layout: `insert` replaces the value of a key
already present, `get` finds the value of a key, and iteration visits the
entries in increasing key order. The model is therefore the entry list in
key order, with the order as a field, so that a map whose entries are out of
order or repeat a key cannot be built.

The lookup lemmas (`get?_insert_self`, `get?_insert_ne`) need no hypothesis.
`toList_foldl_insert` is what the copy loops of `deep_dup` rest on: inserting
entries in increasing key order, each above every key already present,
appends them.
-/

namespace Lkmodel.Mm

/-- A `BTreeMap<usize, α>`: its entries in strictly increasing key order. -/
structure BTreeMap (α : Type) where
  toList : List (Nat × α)
  sorted : toList.Pairwise (fun a b => a.1 < b.1)
deriving DecidableEq

namespace BTreeMap

variable {α : Type}

/-! ## Operations -/

/-- `BTreeMap::new()`. -/
def empty : BTreeMap α := ⟨[], .nil⟩

/-- Insertion into an entry list in key order, replacing the entry of an equal
key. -/
def insertList (k : Nat) (v : α) : List (Nat × α) → List (Nat × α)
  | [] => [(k, v)]
  | e :: es =>
    if k < e.1 then (k, v) :: e :: es
    else if k = e.1 then (k, v) :: es
    else e :: insertList k v es

theorem mem_insertList {k : Nat} {v : α} {e : Nat × α} {l : List (Nat × α)}
    (h : e ∈ insertList k v l) : e = (k, v) ∨ e ∈ l := by
  induction l with
  | nil => simpa [insertList] using h
  | cons hd tl ih =>
    simp only [insertList] at h
    split_ifs at h <;> simp only [List.mem_cons] at h ⊢
    · exact h
    · exact h.imp_right .inr
    · rcases h with h | h
      · exact .inr (.inl h)
      · exact (ih h).imp id .inr

theorem pairwise_insertList (k : Nat) (v : α) {l : List (Nat × α)}
    (h : l.Pairwise (fun a b => a.1 < b.1)) :
    (insertList k v l).Pairwise (fun a b => a.1 < b.1) := by
  induction l with
  | nil => simp [insertList]
  | cons hd tl ih =>
    rw [List.pairwise_cons] at h
    simp only [insertList]
    split_ifs with hlt heq
    · refine List.Pairwise.cons (fun a ha => ?_) (h.2.cons h.1)
      rcases List.mem_cons.mp ha with rfl | ha
      · exact hlt
      · exact hlt.trans (h.1 a ha)
    · exact h.2.cons fun a ha => heq ▸ h.1 a ha
    · refine (ih h.2).cons fun a ha => ?_
      rcases mem_insertList ha with rfl | ha
      · dsimp only; omega
      · exact h.1 a ha

/-- `BTreeMap::insert`, the returned old value dropped. -/
def insert (m : BTreeMap α) (k : Nat) (v : α) : BTreeMap α :=
  ⟨insertList k v m.toList, pairwise_insertList k v m.sorted⟩

/-- `BTreeMap::get`. -/
def get? (m : BTreeMap α) (k : Nat) : Option α := m.toList.lookup k

theorem lookup_cons_ite (a k : Nat) (b : α) (es : List (Nat × α)) :
    ((k, b) :: es).lookup a = if a = k then some b else es.lookup a := by
  rw [List.lookup_cons]
  split <;> simp_all

/-- `BTreeMap::remove`, the returned value dropped. -/
def remove (m : BTreeMap α) (k : Nat) : BTreeMap α :=
  ⟨m.toList.filter (fun e => e.1 != k), m.sorted.sublist (List.filter_sublist _)⟩

/-- `BTreeMap::keys`, in increasing order. -/
def keys (m : BTreeMap α) : List Nat := m.toList.map Prod.fst

/-- `BTreeMap::values`, in key order. -/
def values (m : BTreeMap α) : List α := m.toList.map Prod.snd

/-- `BTreeMap::len`. -/
def size (m : BTreeMap α) : Nat := m.toList.length

/-! ## Lookup -/

theorem ext {m₁ m₂ : BTreeMap α} (h : m₁.toList = m₂.toList) : m₁ = m₂ := by
  cases m₁; cases m₂; cases h; rfl

@[simp] theorem toList_empty : (empty : BTreeMap α).toList = [] := rfl

@[simp] theorem get?_empty (k : Nat) : (empty : BTreeMap α).get? k = none := rfl

theorem lookup_insertList (k k' : Nat) (v : α) (l : List (Nat × α)) :
    (insertList k v l).lookup k' = if k' = k then some v else l.lookup k' := by
  induction l with
  | nil => simp only [insertList, lookup_cons_ite]
  | cons hd tl ih =>
    obtain ⟨k₀, v₀⟩ := hd
    simp only [insertList]
    split_ifs with h₁ h₂ <;> simp only [lookup_cons_ite, ih] <;> split_ifs <;> first | rfl | omega

@[simp] theorem get?_insert (m : BTreeMap α) (k k' : Nat) (v : α) :
    (m.insert k v).get? k' = if k' = k then some v else m.get? k' :=
  lookup_insertList k k' v m.toList

theorem get?_insert_self (m : BTreeMap α) (k : Nat) (v : α) :
    (m.insert k v).get? k = some v := by simp

theorem get?_insert_ne (m : BTreeMap α) {k k' : Nat} (v : α) (h : k' ≠ k) :
    (m.insert k v).get? k' = m.get? k' := by simp [h]

theorem lookup_filter_ne (k k' : Nat) (l : List (Nat × α)) :
    (l.filter (fun e => e.1 != k)).lookup k' = if k' = k then none else l.lookup k' := by
  induction l with
  | nil => simp
  | cons hd tl ih =>
    obtain ⟨k₀, v₀⟩ := hd
    by_cases h₀ : k₀ = k
    · simp only [List.filter_cons, h₀, bne_self_eq_false, Bool.false_eq_true, if_false, ih,
        lookup_cons_ite]
      split_ifs <;> rfl
    · simp only [List.filter_cons, bne_iff_ne.mpr h₀, if_true, ih, lookup_cons_ite]
      split_ifs <;> first | rfl | omega

@[simp] theorem get?_remove (m : BTreeMap α) (k k' : Nat) :
    (m.remove k).get? k' = if k' = k then none else m.get? k' :=
  lookup_filter_ne k k' m.toList

/-- An entry of a sorted list is what lookup finds at its key. -/
theorem lookup_of_mem {l : List (Nat × α)} (hs : l.Pairwise (fun a b => a.1 < b.1))
    {k : Nat} {v : α} (h : (k, v) ∈ l) : l.lookup k = some v := by
  induction l with
  | nil => simp at h
  | cons hd tl ih =>
    obtain ⟨k₀, v₀⟩ := hd
    rw [List.pairwise_cons] at hs
    rw [lookup_cons_ite]
    rcases List.mem_cons.mp h with h | h
    · cases h; simp
    · have hlt := hs.1 _ h
      dsimp only at hlt
      rw [if_neg (by omega), ih hs.2 h]

theorem mem_of_lookup {l : List (Nat × α)} {k : Nat} {v : α} (h : l.lookup k = some v) :
    (k, v) ∈ l := by
  induction l with
  | nil => simp at h
  | cons hd tl ih =>
    obtain ⟨k₀, v₀⟩ := hd
    rw [lookup_cons_ite] at h
    split_ifs at h with hk
    · cases h; subst hk; exact List.mem_cons_self _ _
    · exact List.mem_cons_of_mem _ (ih h)

theorem get?_eq_some_iff (m : BTreeMap α) {k : Nat} {v : α} :
    m.get? k = some v ↔ (k, v) ∈ m.toList :=
  ⟨mem_of_lookup, lookup_of_mem m.sorted⟩

theorem mem_keys_iff (m : BTreeMap α) {k : Nat} : k ∈ m.keys ↔ ∃ v, m.get? k = some v := by
  simp only [keys, List.mem_map, get?_eq_some_iff]
  exact ⟨fun ⟨⟨_, v⟩, h, hk⟩ => ⟨v, hk ▸ h⟩, fun ⟨v, h⟩ => ⟨(k, v), h, rfl⟩⟩

/-- Maps with the same keys answer the same lookups, whatever they store. -/
theorem isSome_get?_of_keys_eq {m m' : BTreeMap α} (h : m.keys = m'.keys) (k : Nat) :
    (m.get? k).isSome = (m'.get? k).isSome := by
  rw [Bool.eq_iff_iff, Option.isSome_iff_exists, Option.isSome_iff_exists, ← mem_keys_iff,
    ← mem_keys_iff, h]

/-! ## Building a map in key order -/

theorem insertList_of_lt {k : Nat} {v : α} {l : List (Nat × α)} (h : ∀ e ∈ l, e.1 < k) :
    insertList k v l = l ++ [(k, v)] := by
  induction l with
  | nil => rfl
  | cons hd tl ih =>
    have hk := h hd (List.mem_cons_self _ _)
    simp only [insertList, if_neg (Nat.lt_asymm hk), if_neg (Nat.ne_of_gt hk),
      ih fun e he => h e (List.mem_cons_of_mem _ he), List.cons_append]

/-- Inserting the entries of a sorted list, each above every key present,
appends them. -/
theorem toList_foldl_insert {β : Type} (key : β → Nat) (val : β → α) :
    ∀ (l : List β) (acc : BTreeMap α), (l.map key).Pairwise (· < ·) →
      (∀ e ∈ acc.toList, ∀ b ∈ l, e.1 < key b) →
      (l.foldl (fun m b => m.insert (key b) (val b)) acc).toList =
        acc.toList ++ l.map fun b => (key b, val b)
  | [], acc, _, _ => by simp
  | b :: bs, acc, hs, hlt => by
    rw [List.map_cons, List.pairwise_cons] at hs
    have happ : (acc.insert (key b) (val b)).toList = acc.toList ++ [(key b, val b)] :=
      insertList_of_lt fun e he => hlt e he b (List.mem_cons_self _ _)
    rw [List.foldl_cons, toList_foldl_insert key val bs _ hs.2, happ]
    · simp
    · intro e he c hc
      rw [happ, List.mem_append, List.mem_singleton] at he
      rcases he with he | rfl
      · exact hlt e he c (List.mem_cons_of_mem _ hc)
      · exact hs.1 _ (List.mem_map_of_mem _ hc)

/-- Rebuilding a map by inserting its own entries in key order gives it back. -/
theorem foldl_insert_self (m : BTreeMap α) :
    m.toList.foldl (fun acc e => acc.insert e.1 e.2) empty = m := by
  apply ext
  rw [toList_foldl_insert Prod.fst Prod.snd _ _ (List.pairwise_map.mpr m.sorted)
    fun e he => absurd he (List.not_mem_nil e), toList_empty, List.nil_append]
  simp only [Prod.mk.eta, List.map_id']

theorem keys_pairwise (m : BTreeMap α) : m.keys.Pairwise (· < ·) :=
  List.pairwise_map.mpr m.sorted

end BTreeMap

end Lkmodel.Mm
