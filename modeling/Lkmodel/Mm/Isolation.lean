import Lkmodel.Mm.System

/-!
# Address spaces are independent over whole runs

`World.run` performs the calls of every process in one interleaved list. Two
results say that what a space holds does not depend on the calls of the
others:

* `run_table_own_calls` — **the per-space refinement.** A space that exists
  when a run starts keeps its table handle, and the table behind it ends as
  its own `map_region` and `unmap_region` calls build it, in their order, from
  the table it had (`PageTable.apply`: the table the backend leaves, also
  when a call fails part-way). No other call changes it, wherever it
  stands in the run: `new`, `deep_dup` of any space (itself included),
  `set_brk`, and the mapping calls of the other spaces. The kernel's one list
  of tables behind shared handles behaves as one independent table per space.
  This rests on the backend never running out of frames for its own tables,
  the one assumption of the page-table model.
* `run_views_stable` — while the page allocator's remaining answers are
  page-aligned, apart from each other and apart from every ledger frame
  (`World.Fresh`), no call changes the bytes of a ledger page: the views the
  spaces had at the start stay as they were, new spaces are appended, and
  every space's view is one a space had at the start or the empty view of
  `MmStruct::new`.

Each comes from a step lemma (`World.step_table`, `World.Fresh.step`), derived
from one inversion lemma per call, and a run lemma by induction on the calls.
-/

namespace Lkmodel.Mm

/-! ## One space's table, on its own -/

/-- The space whose page table a call changes, if any. -/
def MmCall.tableOf : MmCall → Option Nat
  | .mapRegion i _ _ _ _ => some i
  | .unmapRegion i _ _ => some i
  | _ => none

/-- A page table under one of its space's own calls: the table the backend
leaves, whatever the call's result, since a call that fails keeps what it did
before it failed. -/
def PageTable.apply (pt : PageTable) : MmCall → PageTable
  | .mapRegion _ va pa len _ => (pt.mapRegion va pa len rwxu true).1
  | .unmapRegion _ va len => (pt.unmapRegion va len).1
  | _ => pt

/-- The calls of a list addressed to space `i`'s table, in order. -/
def ownCalls (i : Nat) (calls : List MmCall) : List MmCall :=
  calls.filter fun c => c.tableOf = some i

theorem ownCalls_cons (i : Nat) (c : MmCall) (calls : List MmCall) :
    ownCalls i (c :: calls) =
      if c.tableOf = some i then c :: ownCalls i calls else ownCalls i calls := by
  simp only [ownCalls, List.filter_cons, decide_eq_true_eq]

namespace MmStruct

variable (self : MmStruct) (k : Kernel)

@[simp] theorem new_mem : (MmStruct.new k).2.mem = k.mem := rfl

@[simp] theorem new_frames : (MmStruct.new k).2.frames = k.frames := rfl

theorem new_table {t : Nat} (ht : t < k.tables.length) : (MmStruct.new k).2.table t = k.table t :=
  Kernel.table_arcNew_of_lt k.fetchAddId.2 pgdAlloc ht

@[simp] theorem mapRegion_mem (va pa len uflags : Nat) :
    (self.mapRegion k va pa len uflags).1.mem = k.mem := rfl

@[simp] theorem mapRegion_frames (va pa len uflags : Nat) :
    (self.mapRegion k va pa len uflags).1.frames = k.frames := rfl

@[simp] theorem unmapRegion_mem (va len : Nat) : (self.unmapRegion k va len).1.mem = k.mem := rfl

@[simp] theorem unmapRegion_frames (va len : Nat) :
    (self.unmapRegion k va len).1.frames = k.frames := rfl

end MmStruct

/-! ## What one call does -/

namespace World

variable {p : Platform} {w w' : World}

theorem step_deepDup {i : Nat} :
    w.step p (.deepDup i) = some w' ↔ ∃ src dup k, w.spaces[i]? = some src ∧
      src.deepDup p w.kernel = some (dup, k) ∧ w' = ⟨k, w.spaces ++ [dup]⟩ := by
  simp only [step, Option.bind_eq_bind, Option.bind_eq_some, Option.some.injEq, Prod.exists]
  exact ⟨fun ⟨src, hs, dup, k, hd, he⟩ => ⟨src, dup, k, hs, hd, he.symm⟩,
    fun ⟨src, dup, k, hs, hd, he⟩ => ⟨src, hs, dup, k, hd, he.symm⟩⟩

theorem step_setBrk {i brk : Nat} :
    w.step p (.setBrk i brk) = some w' ↔ ∃ mm, w.spaces[i]? = some mm ∧
      w' = ⟨w.kernel, w.spaces.set i (mm.setBrk brk)⟩ := by
  simp only [step, Option.bind_eq_bind, Option.bind_eq_some, Option.some.injEq]
  exact exists_congr fun _ => and_congr_right fun _ => eq_comm

theorem step_mapRegion {i va pa len uflags : Nat} :
    w.step p (.mapRegion i va pa len uflags) = some w' ↔ ∃ mm, w.spaces[i]? = some mm ∧
      w' = ⟨(mm.mapRegion w.kernel va pa len uflags).1, w.spaces⟩ := by
  simp only [step, Option.bind_eq_bind, Option.bind_eq_some, Option.some.injEq]
  exact exists_congr fun _ => and_congr_right fun _ => eq_comm

theorem step_unmapRegion {i va len : Nat} :
    w.step p (.unmapRegion i va len) = some w' ↔ ∃ mm, w.spaces[i]? = some mm ∧
      w' = ⟨(mm.unmapRegion w.kernel va len).1, w.spaces⟩ := by
  simp only [step, Option.bind_eq_bind, Option.bind_eq_some, Option.some.injEq]
  exact exists_congr fun _ => and_congr_right fun _ => eq_comm

/-- No call removes a space. -/
theorem step_length {c : MmCall} (h : w.step p c = some w') :
    w.spaces.length ≤ w'.spaces.length := by
  cases c with
  | new => cases h; simp
  | deepDup i => obtain ⟨_, _, _, -, -, rfl⟩ := step_deepDup.mp h; simp
  | setBrk i brk => obtain ⟨_, -, rfl⟩ := step_setBrk.mp h; simp
  | mapRegion => obtain ⟨_, -, rfl⟩ := step_mapRegion.mp h; exact le_rfl
  | unmapRegion => obtain ⟨_, -, rfl⟩ := step_unmapRegion.mp h; exact le_rfl

theorem run_length : ∀ {w w' : World} (calls : List MmCall), run p w calls = some w' →
    w.spaces.length ≤ w'.spaces.length
  | _, _, [], h => by cases h; exact le_rfl
  | _, _, c :: cs, h => by
    simp only [run, Option.bind_eq_some] at h
    obtain ⟨w₁, h₁, h⟩ := h
    exact (step_length h₁).trans (run_length cs h)

/-- **One call, one table.** In a reachable world, the table behind an
existing space's handle changes only by that space's own `map_region` or
`unmap_region`. -/
theorem step_table (hw : w.Inv) {c : MmCall} (h : w.step p c = some w') {i : Nat}
    (hi : i < w.spaces.length) :
    w'.kernel.table i =
      if c.tableOf = some i then (w.kernel.table i).apply c else w.kernel.table i := by
  have ht : i < w.kernel.tables.length := hw.tables ▸ hi
  cases c with
  | new => cases h; exact MmStruct.new_table _ ht
  | deepDup j =>
    obtain ⟨_, _, _, -, hdup, rfl⟩ := step_deepDup.mp h
    exact deepDup_tables p hdup i ht
  | setBrk j brk => obtain ⟨_, -, rfl⟩ := step_setBrk.mp h; rfl
  | mapRegion j va pa len uflags =>
    obtain ⟨mm, hmm, rfl⟩ := step_mapRegion.mp h
    obtain ⟨hj, rfl⟩ := List.getElem?_eq_some_iff.mp hmm
    have hpgd := hw.pgd j hj
    by_cases hij : j = i
    · subst hij
      exact (if_pos rfl).symm ▸ MmStruct.mapRegion_table_self hpgd ht va pa len uflags
    · simp only [MmCall.tableOf, Option.some.injEq, hij, if_false]
      exact MmStruct.mapRegion_table_ne _ _ (by omega) va pa len uflags
  | unmapRegion j va len =>
    obtain ⟨mm, hmm, rfl⟩ := step_unmapRegion.mp h
    obtain ⟨hj, rfl⟩ := List.getElem?_eq_some_iff.mp hmm
    have hpgd := hw.pgd j hj
    by_cases hij : j = i
    · subst hij
      exact (if_pos rfl).symm ▸ MmStruct.unmapRegion_table_self hpgd ht va len
    · simp only [MmCall.tableOf, Option.some.injEq, hij, if_false]
      exact MmStruct.unmapRegion_table_ne _ _ (by omega) va len

/-- Over a run from a reachable world, the table behind an existing space's
handle is its own calls applied in order. -/
theorem run_table : ∀ {w w' : World} (calls : List MmCall), w.Inv → run p w calls = some w' →
    ∀ i < w.spaces.length,
      w'.kernel.table i = (ownCalls i calls).foldl PageTable.apply (w.kernel.table i)
  | _, _, [], _, h, _, _ => by cases h; rfl
  | _, _, c :: cs, hw, h, i, hi => by
    simp only [run, Option.bind_eq_some] at h
    obtain ⟨w₁, h₁, h⟩ := h
    rw [run_table cs (hw.step c h₁) h i (lt_of_lt_of_le hi (step_length h₁)),
      step_table hw h₁ hi, ownCalls_cons]
    split_ifs <;> rfl

end World

/-- **Each space's table is its own.** In every run from a reachable world, a
space that exists at the start keeps its table handle, and the table behind it
ends as its own `map_region` and `unmap_region` calls build it from the table
it had, in their order, each leaving the table the backend leaves, also when
it fails part-way. The other calls, wherever they stand in the run, change
nothing of it. -/
theorem run_table_own_calls {p : Platform} {w w' : World} (hw : w.Inv) (calls : List MmCall)
    (h : World.run p w calls = some w') {i : Nat} (hi : i < w.spaces.length) :
    (w'.spaces[i]?).map MmStruct.pgd = some w.spaces[i].pgd ∧
      w'.kernel.table w.spaces[i].pgd =
        (ownCalls i calls).foldl PageTable.apply (w.kernel.table w.spaces[i].pgd) := by
  have hi' := lt_of_lt_of_le hi (World.run_length calls h)
  rw [hw.pgd i hi, List.getElem?_eq_getElem hi', Option.map_some',
    (World.Inv.run calls hw h).pgd i hi']
  exact ⟨rfl, World.run_table calls hw h i hi⟩

/-- The space of the page-copy examples, alone in a kernel that created it. -/
def sampleWorld : World := ⟨sampleKernel, [sampleMm]⟩

theorem sampleWorld_inv : sampleWorld.Inv :=
  ⟨rfl, fun j hj => by obtain rfl := Nat.lt_one_iff.mp hj; rfl,
    fun j hj => by obtain rfl := Nat.lt_one_iff.mp hj; rfl, rfl⟩

theorem sample_run_table_own_calls :
    ∃ w', World.run samplePlatform sampleWorld [.mapRegion 0 0x2000 0x3000 0x1000 0, .deepDup 0,
        .unmapRegion 1 0x1000 0x1000, .unmapRegion 0 0x1000 0x3000,
        .mapRegion 0 0x5000 0x6000 0x2000 0] = some w' ∧
      ∃ hi : 0 < sampleWorld.spaces.length,
      (w'.spaces[0]?).map MmStruct.pgd = some sampleWorld.spaces[0].pgd ∧
        w'.kernel.table sampleWorld.spaces[0].pgd =
          (ownCalls 0 [.mapRegion 0 0x2000 0x3000 0x1000 0, .deepDup 0,
            .unmapRegion 1 0x1000 0x1000, .unmapRegion 0 0x1000 0x3000,
            .mapRegion 0 0x5000 0x6000 0x2000 0]).foldl
            PageTable.apply (sampleWorld.kernel.table sampleWorld.spaces[0].pgd) := by
  obtain ⟨w', h⟩ : ∃ w', World.run samplePlatform sampleWorld
      [.mapRegion 0 0x2000 0x3000 0x1000 0, .deepDup 0, .unmapRegion 1 0x1000 0x1000,
        .unmapRegion 0 0x1000 0x3000, .mapRegion 0 0x5000 0x6000 0x2000 0] = some w' :=
    ⟨_, rfl⟩
  exact ⟨w', h, Nat.one_pos, run_table_own_calls sampleWorld_inv _ h Nat.one_pos⟩

/-! ## Page contents over runs -/

/-- The view of each space, in creation order. -/
def World.views (w : World) : List (Nat → Option (List UInt8)) :=
  w.spaces.map fun mm => mm.view w.kernel.mem

/-- The view of a space whose ledger is empty, as `MmStruct::new` leaves it. -/
def emptyView : Nat → Option (List UInt8) := fun _ => none

/-- What the page allocator's remaining answers must be for every later
`deep_dup` to copy without overwriting a ledger page: page-aligned, apart from
each other, and apart from every ledger frame of every space. -/
structure World.Fresh (w : World) : Prop where
  aligned : ∀ f ∈ w.kernel.frames, f % pageSize = 0
  apart_self : w.kernel.frames.Pairwise Apart
  apart_spaces :
    ∀ f ∈ w.kernel.frames, ∀ mm ∈ w.spaces, ∀ g ∈ mm.mapped.values, Apart f g

/-- Writing back an element a list already holds leaves it unchanged. -/
theorem set_getElem_eq_self {α : Type} (l : List α) {i : Nat} (hi : i < l.length) :
    l.set i l[i] = l :=
  List.ext_getElem (by simp) fun j _ _ => by
    rw [List.getElem_set]
    split_ifs with h
    · subst h; rfl
    · rfl

namespace World

variable {p : Platform} {w w' : World}

/-- A call that changes neither memory, nor the allocator, nor the spaces
keeps freshness and every view. -/
theorem Fresh.retable (hf : w.Fresh) {k : Kernel} (hmem : k.mem = w.kernel.mem)
    (hfr : k.frames = w.kernel.frames) :
    (World.mk k w.spaces).Fresh ∧ (World.mk k w.spaces).views = w.views := by
  refine ⟨⟨?_, ?_, ?_⟩, by simp only [views, hmem]⟩ <;> simp only [hfr]
  exacts [hf.aligned, hf.apart_self, hf.apart_spaces]

/-- **One call keeps the pages.** From a fresh world, a call leaves the world
fresh, keeps the view of every space, and appends the views of the spaces it
creates: the empty one for `new`, the source's for `deep_dup`. -/
theorem Fresh.step (hf : w.Fresh) {c : MmCall} (h : w.step p c = some w') :
    w'.Fresh ∧ ∃ extra, w'.views = w.views ++ extra ∧
      ∀ v ∈ extra, v ∈ w.views ∨ v = emptyView := by
  cases c with
  | new =>
    cases h
    refine ⟨⟨hf.aligned, hf.apart_self, fun f hf' mm hmm g hg => ?_⟩, [emptyView],
      by simp only [views, List.map_append, List.map_singleton, MmStruct.new_mem]; rfl,
      by simp⟩
    rcases List.mem_append.mp hmm with hmm | hmm
    · exact hf.apart_spaces f hf' mm hmm g hg
    · rw [List.mem_singleton.mp hmm] at hg; cases hg
  | deepDup i =>
    obtain ⟨src, dup, k, hsrc, hdup, rfl⟩ := step_deepDup.mp h
    have hsrcMem : src ∈ w.spaces := List.mem_iff_getElem?.mpr ⟨i, hsrc⟩
    obtain ⟨hle, hfr⟩ := deepDup_frames p hdup
    have hvals := deepDup_values p hdup
    have hfresh : FreshFrames w.kernel.frames src.mapped.values src.mapped.size :=
      ⟨hle, fun f hf' => hf.aligned f (List.mem_of_mem_take hf'),
        fun f hf' g hg => hf.apart_spaces f (List.mem_of_mem_take hf') src hsrcMem g hg,
        hf.apart_self.sublist (List.take_sublist _ _)⟩
    have hsplit := List.pairwise_append.mp
      ((List.take_append_drop src.mapped.size w.kernel.frames).symm ▸ hf.apart_self)
    refine ⟨⟨fun f hf' => ?_, hfr ▸ hsplit.2.1, fun f hf' mm hmm g hg => ?_⟩,
      [dup.view k.mem], ?_, fun v hv => ?_⟩
    · exact hf.aligned f (List.mem_of_mem_drop (hfr ▸ hf'))
    · rcases List.mem_append.mp hmm with hmm | hmm
      · exact hf.apart_spaces f (List.mem_of_mem_drop (hfr ▸ hf')) mm hmm g hg
      · rw [List.mem_singleton.mp hmm, hvals] at hg
        exact (hsplit.2.2 g hg f (hfr ▸ hf')).symm
    · simp only [views, List.map_append, List.map_singleton]
      exact congrArg (· ++ _) (List.map_congr_left fun mm hmm =>
        deepDup_view_apart p hdup hfresh fun f hf' g hg =>
          hf.apart_spaces f (List.mem_of_mem_take (hvals ▸ hf')) mm hmm g hg)
    · rw [List.mem_singleton.mp hv, (deepDup_view_eq p hdup hfresh).1]
      exact .inl (List.mem_map_of_mem _ hsrcMem)
  | setBrk i brk =>
    obtain ⟨mm, hmm, rfl⟩ := step_setBrk.mp h
    obtain ⟨hi, rfl⟩ := List.getElem?_eq_some_iff.mp hmm
    refine ⟨⟨hf.aligned, hf.apart_self, fun f hf' mm' hmm' g hg => ?_⟩, [], ?_, by simp⟩
    · rcases List.mem_or_eq_of_mem_set hmm' with hmm' | rfl
      · exact hf.apart_spaces f hf' mm' hmm' g hg
      · exact hf.apart_spaces f hf' _ (List.getElem_mem hi) g hg
    · have hi' : i < (w.spaces.map fun mm => mm.view w.kernel.mem).length := by simpa using hi
      have hv : (w.spaces[i].setBrk brk).view w.kernel.mem =
          (w.spaces.map fun mm => mm.view w.kernel.mem)[i] := by
        rw [List.getElem_map]; rfl
      simp only [views, List.map_set, List.append_nil, hv]
      exact set_getElem_eq_self _ hi'
  | mapRegion i va pa len uflags =>
    obtain ⟨mm, -, rfl⟩ := step_mapRegion.mp h
    obtain ⟨hf', hv⟩ := hf.retable (mm.mapRegion_mem _ _ _ _ _) (mm.mapRegion_frames _ _ _ _ _)
    exact ⟨hf', [], by rw [hv, List.append_nil], by simp⟩
  | unmapRegion i va len =>
    obtain ⟨mm, -, rfl⟩ := step_unmapRegion.mp h
    obtain ⟨hf', hv⟩ := hf.retable (mm.unmapRegion_mem _ _ _) (mm.unmapRegion_frames _ _ _)
    exact ⟨hf', [], by rw [hv, List.append_nil], by simp⟩

/-- Over a run from a fresh world: the world stays fresh, and the views are
the starting ones followed by views a space had at the start or the empty
one. -/
theorem Fresh.run : ∀ {w w' : World} (calls : List MmCall), w.Fresh →
    run p w calls = some w' → w'.Fresh ∧ ∃ extra, w'.views = w.views ++ extra ∧
      ∀ v ∈ extra, v ∈ w.views ∨ v = emptyView
  | _, _, [], hf, h => by cases h; exact ⟨hf, [], by simp, by simp⟩
  | _, _, c :: cs, hf, h => by
    simp only [World.run, Option.bind_eq_some] at h
    obtain ⟨w₁, h₁, h⟩ := h
    obtain ⟨hf₁, e₁, hv₁, he₁⟩ := hf.step h₁
    obtain ⟨hf', e₂, hv₂, he₂⟩ := Fresh.run cs hf₁ h
    refine ⟨hf', e₁ ++ e₂, by rw [hv₂, hv₁, List.append_assoc], fun v hv => ?_⟩
    rcases List.mem_append.mp hv with hv | hv
    · exact he₁ v hv
    rcases he₂ v hv with hv | hv
    · rw [hv₁] at hv
      rcases List.mem_append.mp hv with hv | hv
      · exact .inl hv
      · exact he₁ v hv
    · exact .inr hv

end World

/-- **Page contents survive every run.** From a world whose allocator will
answer with fresh frames, in every run — any interleaving of `new`,
`deep_dup`, `set_brk`, `map_region` and `unmap_region` over any spaces — the
bytes of every ledger page of every space that existed at the start are as
they were, so each of those spaces keeps its view; the spaces created on the
way are appended, and every space's view is one some space had at the start
or the empty view of `MmStruct::new`. -/
theorem run_views_stable {p : Platform} {w w' : World} (hf : w.Fresh) (calls : List MmCall)
    (h : World.run p w calls = some w') :
    w.views <+: w'.views ∧ ∀ v ∈ w'.views, v ∈ w.views ∨ v = emptyView := by
  obtain ⟨-, extra, hv, he⟩ := World.Fresh.run calls hf h
  refine ⟨⟨extra, hv.symm⟩, fun v hv' => ?_⟩
  rw [hv] at hv'
  rcases List.mem_append.mp hv' with hv' | hv'
  · exact .inl hv'
  · exact he v hv'

theorem sampleWorld_fresh : sampleWorld.Fresh := ⟨by decide, by decide, by decide⟩

theorem sample_run_views_stable :
    ∃ w', World.run samplePlatform sampleWorld [.deepDup 0, .new, .deepDup 2, .setBrk 0 0x8000] =
        some w' ∧
      sampleWorld.views <+: w'.views ∧
        ∀ v ∈ w'.views, v ∈ sampleWorld.views ∨ v = emptyView := by
  obtain ⟨w', h⟩ : ∃ w', World.run samplePlatform sampleWorld
      [.deepDup 0, .new, .deepDup 2, .setBrk 0 0x8000] = some w' := ⟨_, rfl⟩
  exact ⟨w', h, run_views_stable sampleWorld_fresh _ h⟩

end Lkmodel.Mm
