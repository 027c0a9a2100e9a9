import Lkmodel.Mm.MmStruct
import Lkmodel.Memory

/-!
# `MmStruct::deep_dup`

Fork duplicates an address space: the VMA map is rebuilt by inserting every
VMA under its `vm_start`, and every page of the `mapped` ledger is copied
into a freshly allocated page that the new page table maps at the same
virtual address. This module proves what the duplicate is:

* `deepDup_copies_pages` — with page-aligned ledger keys and an allocator
  whose answers are page-aligned, apart from the source frames and from each
  other, `deep_dup` returns; the duplicate's ledger has the source's keys,
  each new frame holds the bytes its source frame held, and the new table
  maps each key to its new frame with `READ | WRITE | EXECUTE | USER`;
* `deepDup_isolated` — the new frames are apart from each other and from the
  source frames, no other byte and no existing page table changes, so a
  write into a frame of one space leaves every frame of the other as it was;
* `deepDup_copies_descriptors` — whenever `deep_dup` returns on a source
  whose VMAs are keyed by their start, it copies the VMA map exactly, the
  ledger's keys, `brk` and `locked_vm`, and so keeps the data-model
  invariants.

The loop lemmas (`dupPages_*`) carry one fact each through the ledger loop,
from the inversion lemma `dupPages_cons`.
-/

namespace Lkmodel.Mm

/-! ## Frames -/

/-- Address `a` lies in the page-sized frame at `f`. -/
def InPage (f a : Nat) : Prop := f ≤ a ∧ a < f + pageSize

/-- The page-sized frames at `f` and `g` do not overlap. -/
def Apart (f g : Nat) : Prop := f + pageSize ≤ g ∨ g + pageSize ≤ f

instance (f a : Nat) : Decidable (InPage f a) := inferInstanceAs (Decidable (_ ∧ _))

instance (f g : Nat) : Decidable (Apart f g) := inferInstanceAs (Decidable (_ ∨ _))

theorem Apart.symm {f g : Nat} (h : Apart f g) : Apart g f := Or.symm h

theorem Apart.not_inPage {f g : Nat} (h : Apart f g) {j : Nat} (hj : j < pageSize) :
    ¬InPage f (g + j) := by
  unfold Apart at h; unfold InPage; omega

/-- What the duplication asks of the page allocator: its first `n` answers are
page-aligned, apart from every source frame, and apart from each other. -/
structure FreshFrames (frames src : List Nat) (n : Nat) : Prop where
  enough : n ≤ frames.length
  aligned : ∀ f ∈ frames.take n, f % pageSize = 0
  apart_src : ∀ f ∈ frames.take n, ∀ g ∈ src, Apart f g
  apart_self : (frames.take n).Pairwise Apart

instance (frames src : List Nat) (n : Nat) : Decidable (FreshFrames frames src n) :=
  decidable_of_iff (n ≤ frames.length ∧ (∀ f ∈ frames.take n, f % pageSize = 0) ∧
      (∀ f ∈ frames.take n, ∀ g ∈ src, Apart f g) ∧ (frames.take n).Pairwise Apart)
    ⟨fun ⟨h₁, h₂, h₃, h₄⟩ => ⟨h₁, h₂, h₃, h₄⟩, fun h => ⟨h.1, h.2, h.3, h.4⟩⟩

theorem map_snd_zip_take {α β : Type} :
    ∀ (l : List α) (fs : List β), l.length ≤ fs.length →
      (l.zip fs).map Prod.snd = fs.take l.length
  | [], _, _ => rfl
  | _ :: _, [], h => absurd h (by simp)
  | _ :: l, f :: fs, h => by
    simp [map_snd_zip_take l fs (by simpa using h)]

theorem map_fst_fst_zip {α β γ : Type} (l : List (α × γ)) (fs : List β)
    (h : l.length ≤ fs.length) : (l.zip fs).map (fun ef => ef.1.1) = l.map Prod.fst := by
  conv_rhs => rw [← List.map_fst_zip l fs h]
  rw [List.map_map]
  rfl

/-! ## The ledger loop -/

section Loop

variable (p : Platform)

/-- A run of the ledger loop consumed one allocator answer per entry and
touched neither the tables nor the id counter. -/
theorem dupPages_frames :
    ∀ (l : List (Nat × Nat)) (k : Kernel) (pgd : PageTable) (mapped : BTreeMap Nat) {r},
      MmStruct.dupPages p l k pgd mapped = some r →
      l.length ≤ k.frames.length ∧ r.1.frames = k.frames.drop l.length ∧
        r.1.tables = k.tables ∧ r.1.mmUniqueId = k.mmUniqueId
  | [], k, pgd, mapped, r, h => by
    cases h; exact ⟨Nat.zero_le _, rfl, rfl, rfl⟩
  | (va, old) :: rest, k, pgd, mapped, r, h => by
    obtain ⟨f, fs, hk, -, -, h⟩ := (dupPages_cons p).mp h
    have ih := dupPages_frames rest _ _ _ h
    simp only [hk, List.length_cons, List.drop_succ_cons] at ih ⊢
    exact ⟨by omega, ih.2⟩

/-- The ledger a run of the loop builds. -/
theorem dupPages_mapped :
    ∀ (l : List (Nat × Nat)) (k : Kernel) (pgd : PageTable) (mapped : BTreeMap Nat) {r},
      MmStruct.dupPages p l k pgd mapped = some r →
      r.2.2 = (l.zip k.frames).foldl (fun m ef => m.insert ef.1.1 ef.2) mapped
  | [], k, pgd, mapped, r, h => by cases h; rfl
  | (va, old) :: rest, k, pgd, mapped, r, h => by
    obtain ⟨f, fs, hk, -, -, h⟩ := (dupPages_cons p).mp h
    rw [dupPages_mapped rest _ _ _ h, hk, List.zip_cons_cons, List.foldl_cons]

/-- The entry the new table holds for a ledger page. -/
def tableEntry (e : Nat × Nat) : Nat × PageEntry := (e.1, ⟨p.virtToPhys e.2, rwxu⟩)

theorem insertList_map {α β : Type} (g : α → β) (k : Nat) (v : α) :
    ∀ l : List (Nat × α), BTreeMap.insertList k (g v) (l.map fun e => (e.1, g e.2)) =
      (BTreeMap.insertList k v l).map fun e => (e.1, g e.2)
  | [] => rfl
  | e :: es => by
    simp only [List.map_cons, BTreeMap.insertList]
    split_ifs <;> simp [insertList_map g k v es]

/-- The loop keeps the new table's entries those of the ledger it builds. -/
theorem dupPages_table :
    ∀ (l : List (Nat × Nat)) (k : Kernel) (pgd : PageTable) (mapped : BTreeMap Nat) {r},
      MmStruct.dupPages p l k pgd mapped = some r →
      pgd.entries.toList = mapped.toList.map (tableEntry p) →
      r.2.1.entries.toList = r.2.2.toList.map (tableEntry p)
  | [], k, pgd, mapped, r, h, hinv => by cases h; exact hinv
  | (va, old) :: rest, k, pgd, mapped, r, h, hinv => by
    obtain ⟨f, fs, hk, -, -, h⟩ := (dupPages_cons p).mp h
    refine dupPages_table rest _ _ _ h ?_
    show BTreeMap.insertList va _ pgd.entries.toList = _
    rw [hinv]
    exact insertList_map (fun f => (⟨p.virtToPhys f, rwxu⟩ : PageEntry)) va f _

/-- The memory a run of the loop leaves: each new frame holds its source
frame's bytes, and no byte outside the new frames changed. -/
theorem dupPages_mem :
    ∀ (l : List (Nat × Nat)) (k : Kernel) (pgd : PageTable) (mapped : BTreeMap Nat) {r},
      MmStruct.dupPages p l k pgd mapped = some r →
      (∀ e ∈ l, ∀ f ∈ k.frames.take l.length, Apart f e.2) →
      (k.frames.take l.length).Pairwise Apart →
      (∀ a, (∀ f ∈ k.frames.take l.length, ¬InPage f a) → r.1.mem a = k.mem a) ∧
      (∀ e f, (e, f) ∈ l.zip k.frames → ∀ j < pageSize, r.1.mem (f + j) = k.mem (e.2 + j))
  | [], k, pgd, mapped, r, h, _, _ => by
    cases h; exact ⟨fun _ _ => rfl, by simp⟩
  | (va, old) :: rest, k, pgd, mapped, r, h, hsrc, hself => by
    obtain ⟨f, fs, hk, -, -, h⟩ := (dupPages_cons p).mp h
    simp only [hk, List.length_cons, List.take_succ_cons, List.pairwise_cons,
      List.mem_cons, forall_eq_or_imp] at hsrc hself
    obtain ⟨ihout, ihin⟩ := dupPages_mem rest _ _ _ h
      (fun e he g hg => (hsrc.2 e he).2 g hg) hself.2
    have hcopy : ∀ a, ¬InPage f a → copyNonoverlapping k.mem old f pageSize a = k.mem a :=
      fun a ha => if_neg ha
    refine ⟨fun a ha => ?_, fun e g heg j hj => ?_⟩
    · simp only [hk, List.length_cons, List.take_succ_cons, List.mem_cons,
        forall_eq_or_imp] at ha
      rw [ihout a ha.2]
      exact hcopy a ha.1
    · rw [hk, List.zip_cons_cons, List.mem_cons, Prod.mk.injEq] at heg
      rcases heg with ⟨rfl, rfl⟩ | heg
      · rw [ihout _ fun g hg => (hself.1 g hg).symm.not_inPage hj]
        show (if _ then _ else _) = _
        rw [if_pos (by unfold InPage at *; omega), Nat.add_sub_cancel_left]
      · rw [ihin e g heg j hj]
        exact hcopy _ ((hsrc.2 e (List.of_mem_zip heg).1).1.not_inPage hj)

/-- The loop runs to the end when the allocator answers every entry with a
page-aligned frame and every key is page-aligned. -/
theorem dupPages_isSome :
    ∀ (l : List (Nat × Nat)) (k : Kernel) (pgd : PageTable) (mapped : BTreeMap Nat),
      (∀ e ∈ l, e.1 % pageSize = 0) → l.length ≤ k.frames.length →
      (∀ f ∈ k.frames.take l.length, f % pageSize = 0) →
      ∃ r, MmStruct.dupPages p l k pgd mapped = some r
  | [], _, _, _, _, _, _ => ⟨_, rfl⟩
  | (va, old) :: rest, k, pgd, mapped, hkeys, hlen, hal => by
    rcases hk : k.frames with _ | ⟨f, fs⟩
    · simp [hk] at hlen
    simp only [hk, List.length_cons, List.take_succ_cons, List.mem_cons,
      forall_eq_or_imp] at hlen hal
    simp only [List.mem_cons, forall_eq_or_imp] at hkeys
    obtain ⟨r, hr⟩ := dupPages_isSome rest
      { k with frames := fs, mem := copyNonoverlapping k.mem old f pageSize }
      ⟨pgd.entries.insert va ⟨p.virtToPhys f, rwxu⟩⟩ (mapped.insert va f) hkeys.2
      (by simp only; omega) hal.2
    exact ⟨r, (dupPages_cons p).mpr ⟨f, fs, hk, hkeys.1, p.virtToPhys_aligned f hal.1, hr⟩⟩

end Loop

/-! ## The whole call -/

/-- `deep_dup` inverted: a successful call is a successful ledger loop followed
by the id draw and the registration of the new table. -/
theorem deepDup_eq_some (p : Platform) {self dup : MmStruct} {k k' : Kernel} :
    self.deepDup p k = some (dup, k') ↔
      ∃ r, MmStruct.dupPages p self.mapped.toList k pgdAlloc .empty = some r ∧
        dup = ⟨r.1.mmUniqueId, MmStruct.dupVmas self.vmas, r.1.tables.length, self.brk, r.2.2,
          self.lockedVm⟩ ∧
        k' = (r.1.fetchAddId.2.arcNew r.2.1).2 := by
  simp only [MmStruct.deepDup, Option.bind_eq_bind, Option.bind_eq_some]
  constructor
  · rintro ⟨r, hr, h⟩
    cases h
    exact ⟨r, hr, rfl, rfl⟩
  · rintro ⟨r, hr, rfl, rfl⟩
    exact ⟨r, hr, rfl⟩

/-- A successful `deep_dup` draws one id and registers one table. -/
theorem deepDup_draws (p : Platform) {self dup : MmStruct} {k k' : Kernel}
    (h : self.deepDup p k = some (dup, k')) :
    dup.id = k.mmUniqueId ∧ dup.pgd = k.tables.length ∧
      k'.mmUniqueId = (k.mmUniqueId + 1) % 2 ^ 64 ∧ k'.tables.length = k.tables.length + 1 := by
  obtain ⟨r, hr, rfl, rfl⟩ := (deepDup_eq_some p).mp h
  obtain ⟨-, -, htables, hid⟩ := dupPages_frames p _ _ _ _ hr
  simp [htables, hid]

/-- Rebuilding a VMA map keyed by start gives the same map. -/
theorem dupVmas_of_keyed {vmas : BTreeMap VmAreaStruct}
    (hkeyed : ∀ k v, vmas.get? k = some v → v.vmStart = k) : MmStruct.dupVmas vmas = vmas := by
  conv_rhs => rw [← vmas.foldl_insert_self]
  rw [MmStruct.dupVmas, BTreeMap.values, List.foldl_map]
  refine List.foldl_ext _ _ _ fun acc e he => ?_
  rw [hkeyed e.1 e.2 ((vmas.get?_eq_some_iff).mpr he)]

/-- The ledger of a duplicate: the source's keys, each with the allocator's
answer for it. -/
theorem deepDup_mapped (p : Platform) {self dup : MmStruct} {k k' : Kernel}
    (h : self.deepDup p k = some (dup, k')) :
    dup.mapped.toList = (self.mapped.toList.zip k.frames).map fun ef => (ef.1.1, ef.2) := by
  obtain ⟨r, hr, rfl, rfl⟩ := (deepDup_eq_some p).mp h
  have hfst := map_fst_fst_zip _ _ (dupPages_frames p _ _ _ _ hr).1
  show r.2.2.toList = _
  rw [dupPages_mapped p _ _ _ _ hr]
  exact (BTreeMap.toList_foldl_insert (fun ef : (Nat × Nat) × Nat => ef.1.1) Prod.snd _ _
    (by rw [hfst]; exact self.mapped.keys_pairwise) (by simp)).trans (List.nil_append _)

theorem deepDup_keys (p : Platform) {self dup : MmStruct} {k k' : Kernel}
    (h : self.deepDup p k = some (dup, k')) : dup.mapped.keys = self.mapped.keys := by
  obtain ⟨r, hr, -, -⟩ := (deepDup_eq_some p).mp h
  rw [BTreeMap.keys, deepDup_mapped p h, List.map_map]
  exact map_fst_fst_zip _ _ (dupPages_frames p _ _ _ _ hr).1

theorem deepDup_values (p : Platform) {self dup : MmStruct} {k k' : Kernel}
    (h : self.deepDup p k = some (dup, k')) :
    dup.mapped.values = k.frames.take self.mapped.size := by
  obtain ⟨r, hr, -, -⟩ := (deepDup_eq_some p).mp h
  rw [BTreeMap.values, deepDup_mapped p h, List.map_map]
  exact map_snd_zip_take _ _ (dupPages_frames p _ _ _ _ hr).1

/-- A successful `deep_dup` drew one allocator answer per ledger entry. -/
theorem deepDup_frames (p : Platform) {self dup : MmStruct} {k k' : Kernel}
    (h : self.deepDup p k = some (dup, k')) :
    self.mapped.size ≤ k.frames.length ∧ k'.frames = k.frames.drop self.mapped.size := by
  obtain ⟨r, hr, rfl, rfl⟩ := (deepDup_eq_some p).mp h
  obtain ⟨hle, hfr, -, -⟩ := dupPages_frames p _ _ _ _ hr
  exact ⟨hle, hfr⟩

/-- A page of the duplicate's ledger comes from the entry of the source
ledger at the same key, paired with its allocator answer. -/
theorem deepDup_entry (p : Platform) {self dup : MmStruct} {k k' : Kernel}
    (h : self.deepDup p k = some (dup, k')) {va old new : Nat}
    (hold : self.mapped.get? va = some old) (hnew : dup.mapped.get? va = some new) :
    ((va, old), new) ∈ self.mapped.toList.zip k.frames := by
  rw [BTreeMap.get?_eq_some_iff, deepDup_mapped p h, List.mem_map] at hnew
  obtain ⟨⟨⟨va', old'⟩, new'⟩, hmem, heq⟩ := hnew
  cases heq
  have : old' = old := by
    have := (self.mapped.get?_eq_some_iff).mpr (List.of_mem_zip hmem).1
    rw [hold] at this
    exact (Option.some.inj this).symm
  exact this ▸ hmem

/-- The new table holds exactly the duplicate's ledger pages. -/
theorem deepDup_table (p : Platform) {self dup : MmStruct} {k k' : Kernel}
    (h : self.deepDup p k = some (dup, k')) :
    (k'.table dup.pgd).entries.toList = dup.mapped.toList.map (tableEntry p) := by
  obtain ⟨r, hr, rfl, rfl⟩ := (deepDup_eq_some p).mp h
  exact (Kernel.table_arcNew_self r.1.fetchAddId.2 r.2.1).symm ▸ dupPages_table p _ _ _ _ hr rfl

/-- `deep_dup` changes no page table that existed before the call. -/
theorem deepDup_tables (p : Platform) {self dup : MmStruct} {k k' : Kernel}
    (h : self.deepDup p k = some (dup, k')) : ∀ t < k.tables.length, k'.table t = k.table t := by
  obtain ⟨r, hr, rfl, rfl⟩ := (deepDup_eq_some p).mp h
  obtain ⟨-, -, htables, -⟩ := dupPages_frames p _ _ _ _ hr
  intro t ht
  rw [Kernel.table_arcNew_of_lt _ _ (by simpa [htables] using ht)]
  simp only [Kernel.table, Kernel.fetchAddId_tables, htables]

/-- The memory after a successful `deep_dup` with fresh frames: each new frame
holds its source frame's bytes, and no byte outside the new frames changed. -/
theorem deepDup_mem (p : Platform) {self dup : MmStruct} {k k' : Kernel}
    (h : self.deepDup p k = some (dup, k'))
    (hfresh : FreshFrames k.frames self.mapped.values self.mapped.size) :
    (∀ a, (∀ f ∈ dup.mapped.values, ¬InPage f a) → k'.mem a = k.mem a) ∧
    (∀ va old new, self.mapped.get? va = some old → dup.mapped.get? va = some new →
      ∀ j < pageSize, k'.mem (new + j) = k.mem (old + j)) := by
  have hvals := deepDup_values p h
  obtain ⟨r, hr, rfl, rfl⟩ := (deepDup_eq_some p).mp h
  obtain ⟨hout, hin⟩ := dupPages_mem p _ _ _ _ hr
    (fun e he f hf => hfresh.apart_src f hf e.2 (List.mem_map_of_mem _ he)) hfresh.apart_self
  exact ⟨fun a ha => hout a (hvals ▸ ha),
    fun va old new hold hnew j hj => hin _ _ (deepDup_entry p h hold hnew) j hj⟩

/-- With page-aligned ledger keys and enough page-aligned answers from the
allocator, `deep_dup` returns. -/
theorem deepDup_isSome (p : Platform) (self : MmStruct) (k : Kernel)
    (hkeys : ∀ va ∈ self.mapped.keys, va % pageSize = 0)
    (hfresh : FreshFrames k.frames self.mapped.values self.mapped.size) :
    ∃ dup k', self.deepDup p k = some (dup, k') := by
  obtain ⟨r, hr⟩ := dupPages_isSome p self.mapped.toList k pgdAlloc .empty
    (fun e he => hkeys e.1 (List.mem_map_of_mem _ he)) hfresh.enough hfresh.aligned
  exact ⟨_, _, (deepDup_eq_some p).mpr ⟨r, hr, rfl, rfl⟩⟩

/-- A table holding a ledger's pages translates exactly those pages, each to
its frame with `READ | WRITE | EXECUTE | USER`. -/
theorem query_of_entries {p : Platform} {pt : PageTable} {mapped : BTreeMap Nat}
    (hpt : pt.entries.toList = mapped.toList.map (tableEntry p)) (va : Nat) :
    pt.query va = (mapped.get? (va - va % pageSize)).map
      fun f => (p.virtToPhys f + va % pageSize, rwxu) := by
  simp only [PageTable.query, BTreeMap.get?, hpt]
  generalize va - va % pageSize = b
  induction mapped.toList with
  | nil => rfl
  | cons e es ih =>
    obtain ⟨va', f⟩ := e
    simp only [List.map_cons, tableEntry, BTreeMap.lookup_cons_ite]
    split_ifs
    · rfl
    · exact ih

/-! ## Page copies and isolation -/

/-- **Duplication copies every ledger page.** Let the ledger keys be
page-aligned and let the allocator answer each of the ledger's requests with a
page-aligned frame apart from every source frame and every earlier answer.
Then `deep_dup` returns. The duplicate's ledger has the source's keys; for each
key `va` the new frame holds, after the call, the `PAGE_SIZE` bytes the source
frame held before it, and the duplicate's table translates `va` to
`virt_to_phys` of the new frame with `READ | WRITE | EXECUTE | USER`. -/
theorem deepDup_copies_pages (p : Platform) (self : MmStruct) (k : Kernel)
    (hkeys : ∀ va ∈ self.mapped.keys, va % pageSize = 0)
    (hfresh : FreshFrames k.frames self.mapped.values self.mapped.size) :
    ∃ dup k', self.deepDup p k = some (dup, k') ∧ dup.mapped.keys = self.mapped.keys ∧
      ∀ va old new, self.mapped.get? va = some old → dup.mapped.get? va = some new →
        (∀ j < pageSize, k'.mem (new + j) = k.mem (old + j)) ∧
        (k'.table dup.pgd).query va = some (p.virtToPhys new, rwxu) := by
  obtain ⟨dup, k', h⟩ := deepDup_isSome p self k hkeys hfresh
  refine ⟨dup, k', h, deepDup_keys p h, fun va old new hold hnew =>
    ⟨(deepDup_mem p h hfresh).2 va old new hold hnew, ?_⟩⟩
  have hva : va % pageSize = 0 :=
    hkeys va ((self.mapped.mem_keys_iff).mpr ⟨old, hold⟩)
  rw [query_of_entries (deepDup_table p h), hva, Nat.sub_zero, hnew]
  rfl

/-! ## A sample address space

Two adjacent VMAs, `[0x1000, 0x2000)` anonymous and `[0x2000, 0x4000)` backed
by file 7; the pages at `0x1000` and `0x2000` are in the ledger at frames
`0x80000` (full of `0xAA`) and `0x81000` (full of `0xBB`), and mapped so in
the source's table; the allocator's next answers are `0x90000` and
`0x91000`. -/

/-- The sample's VMA map. -/
def sampleVmas : BTreeMap VmAreaStruct :=
  (BTreeMap.empty.insert 0x1000 (VmAreaStruct.new 0x1000 0x2000 0 none 3)).insert 0x2000
    (VmAreaStruct.new 0x2000 0x4000 0 (some 7) 1)

/-- The sample address space. -/
def sampleMm : MmStruct :=
  ⟨1, sampleVmas, 0, 0x4000, (BTreeMap.empty.insert 0x1000 0x80000).insert 0x2000 0x81000, 0⟩

/-- The sample kernel: the two source frames, two free frames, the source's
table, and the counter at 2. -/
def sampleKernel : Kernel :=
  ⟨fun a => if 0x80000 ≤ a ∧ a < 0x81000 then 0xAA
      else if 0x81000 ≤ a ∧ a < 0x82000 then 0xBB else 0,
    [0x90000, 0x91000],
    [⟨(BTreeMap.empty.insert 0x1000 ⟨0x80000, rwxu⟩).insert 0x2000 ⟨0x81000, rwxu⟩⟩],
    2⟩

/-- The identity `virt_to_phys`. -/
def samplePlatform : Platform := Platform.linear 0 rfl

theorem sample_deepDup_copies_pages :
    ∃ dup k', sampleMm.deepDup samplePlatform sampleKernel = some (dup, k') ∧
      dup.mapped.keys = sampleMm.mapped.keys ∧
      ∀ va old new, sampleMm.mapped.get? va = some old → dup.mapped.get? va = some new →
        (∀ j < pageSize, k'.mem (new + j) = sampleKernel.mem (old + j)) ∧
        (k'.table dup.pgd).query va = some (samplePlatform.virtToPhys new, rwxu) :=
  deepDup_copies_pages samplePlatform sampleMm sampleKernel (by decide) (by decide)

/-- `bytes` written at `addr` fit in the frame at `f`. -/
def InFrame (f addr : Nat) (bytes : List UInt8) : Prop :=
  f ≤ addr ∧ addr + bytes.length ≤ f + pageSize

theorem writeBytes_of_apart {f g addr a : Nat} {bytes : List UInt8} (mem : Nat → UInt8)
    (hfg : Apart f g) (hw : InFrame f addr bytes) (ha : InPage g a) :
    writeBytes mem addr bytes a = mem a := by
  unfold Apart at hfg; unfold InFrame at hw; unfold InPage at ha
  exact writeBytes_of_not_mem (by omega)

/-- **The duplicate is isolated from the source.** Under the hypotheses of
`deepDup_copies_pages`, the duplicate's frames are apart from each other and
from every source frame; the call writes no byte outside them and changes no
page table that existed before it. Hence a write into one of the duplicate's
frames leaves every byte of every source frame as it was, and a write into a
source frame leaves every byte of every duplicate frame as it was. -/
theorem deepDup_isolated (p : Platform) (self : MmStruct) (k : Kernel)
    (hkeys : ∀ va ∈ self.mapped.keys, va % pageSize = 0)
    (hfresh : FreshFrames k.frames self.mapped.values self.mapped.size) :
    ∃ dup k', self.deepDup p k = some (dup, k') ∧
      dup.mapped.values.Pairwise Apart ∧
      (∀ f ∈ dup.mapped.values, ∀ g ∈ self.mapped.values, Apart f g) ∧
      (∀ a, (∀ f ∈ dup.mapped.values, ¬InPage f a) → k'.mem a = k.mem a) ∧
      (∀ h < k.tables.length, k'.table h = k.table h) ∧
      (∀ f ∈ dup.mapped.values, ∀ g ∈ self.mapped.values, ∀ addr bytes, InFrame f addr bytes →
        ∀ a, InPage g a → writeBytes k'.mem addr bytes a = k'.mem a) ∧
      (∀ g ∈ self.mapped.values, ∀ f ∈ dup.mapped.values, ∀ addr bytes, InFrame g addr bytes →
        ∀ a, InPage f a → writeBytes k'.mem addr bytes a = k'.mem a) := by
  obtain ⟨dup, k', h⟩ := deepDup_isSome p self k hkeys hfresh
  have hvals := deepDup_values p h
  have hsrc : ∀ f ∈ dup.mapped.values, ∀ g ∈ self.mapped.values, Apart f g :=
    hvals ▸ hfresh.apart_src
  exact ⟨dup, k', h, hvals ▸ hfresh.apart_self, hsrc, (deepDup_mem p h hfresh).1,
    deepDup_tables p h,
    fun f hf g hg _ _ hw _ ha => writeBytes_of_apart _ (hsrc f hf g hg) hw ha,
    fun g hg f hf _ _ hw _ ha => writeBytes_of_apart _ (hsrc f hf g hg).symm hw ha⟩

theorem sample_deepDup_isolated :
    ∃ dup k', sampleMm.deepDup samplePlatform sampleKernel = some (dup, k') ∧
      dup.mapped.values.Pairwise Apart ∧
      (∀ f ∈ dup.mapped.values, ∀ g ∈ sampleMm.mapped.values, Apart f g) ∧
      (∀ a, (∀ f ∈ dup.mapped.values, ¬InPage f a) → k'.mem a = sampleKernel.mem a) ∧
      (∀ h < sampleKernel.tables.length, k'.table h = sampleKernel.table h) ∧
      (∀ f ∈ dup.mapped.values, ∀ g ∈ sampleMm.mapped.values, ∀ addr bytes,
        InFrame f addr bytes → ∀ a, InPage g a → writeBytes k'.mem addr bytes a = k'.mem a) ∧
      (∀ g ∈ sampleMm.mapped.values, ∀ f ∈ dup.mapped.values, ∀ addr bytes,
        InFrame g addr bytes → ∀ a, InPage f a → writeBytes k'.mem addr bytes a = k'.mem a) :=
  deepDup_isolated samplePlatform sampleMm sampleKernel (by decide) (by decide)

/-- The data-model invariants of an address space (specification §3): VMAs
keyed by their start and pairwise non-overlapping, and every ledger key inside
some VMA. -/
structure MmStruct.Invariant (mm : MmStruct) : Prop where
  keyed : ∀ s v, mm.vmas.get? s = some v → v.vmStart = s
  disjoint : ∀ s₁ v₁ s₂ v₂, mm.vmas.get? s₁ = some v₁ → mm.vmas.get? s₂ = some v₂ → s₁ ≠ s₂ →
    v₁.vmEnd ≤ v₂.vmStart ∨ v₂.vmEnd ≤ v₁.vmStart
  covered : ∀ va ∈ mm.mapped.keys, ∃ s v, mm.vmas.get? s = some v ∧ v.vmStart ≤ va ∧ va < v.vmEnd

/-- **Duplication copies the descriptors.** On a source whose VMAs are keyed by
their start, every return of `deep_dup` has the source's VMA map (same keys,
and at each key a VMA with the same bounds, offset, flags and file handle),
the source's ledger keys, `brk` and `locked_vm`; so when the source satisfies
the data-model invariants, so does the duplicate. -/
theorem deepDup_copies_descriptors (p : Platform) {self dup : MmStruct} {k k' : Kernel}
    (hkeyed : ∀ s v, self.vmas.get? s = some v → v.vmStart = s)
    (h : self.deepDup p k = some (dup, k')) :
    dup.vmas = self.vmas ∧ dup.mapped.keys = self.mapped.keys ∧ dup.brk = self.brk ∧
      dup.lockedVm = self.lockedVm ∧ (self.Invariant → dup.Invariant) := by
  have hkeys := deepDup_keys p h
  obtain ⟨r, -, hdup, -⟩ := (deepDup_eq_some p).mp h
  have hvmas : dup.vmas = self.vmas := by rw [hdup]; exact dupVmas_of_keyed hkeyed
  refine ⟨hvmas, hkeys, by rw [hdup], by rw [hdup], fun ⟨keyed, disjoint, covered⟩ => ?_⟩
  exact ⟨by rw [hvmas]; exact keyed, by rw [hvmas]; exact disjoint,
    by rw [hvmas, hkeys]; exact covered⟩

theorem sampleVmas_keyed : ∀ s v, sampleVmas.get? s = some v → v.vmStart = s := by
  intro s v h
  simp only [sampleVmas, BTreeMap.get?_insert, BTreeMap.get?_empty] at h
  split_ifs at h with hs hs'
  · cases h; exact hs.symm
  · cases h; exact hs'.symm

theorem sample_deepDup_copies_descriptors :
    ∃ dup k', sampleMm.deepDup samplePlatform sampleKernel = some (dup, k') ∧
      dup.vmas = sampleMm.vmas ∧ dup.mapped.keys = sampleMm.mapped.keys ∧
      dup.brk = sampleMm.brk ∧ dup.lockedVm = sampleMm.lockedVm ∧
      (sampleMm.Invariant → dup.Invariant) := by
  obtain ⟨dup, k', h⟩ := deepDup_isSome samplePlatform sampleMm sampleKernel (by decide)
    (by decide)
  exact ⟨dup, k', h, deepDup_copies_descriptors samplePlatform sampleVmas_keyed h⟩

/-! ## The abstract view

What an address space is for, seen from its ledger: the bytes of the page at
each materialized virtual address. Duplication is a copy of that view. -/

/-- The `PAGE_SIZE` bytes at frame `f`. -/
def pageBytes (mem : Nat → UInt8) (f : Nat) : List UInt8 :=
  (List.range pageSize).map fun j => mem (f + j)

/-- The content of each ledger page of `mm`. -/
def MmStruct.view (mm : MmStruct) (mem : Nat → UInt8) (va : Nat) : Option (List UInt8) :=
  (mm.mapped.get? va).map (pageBytes mem)

theorem pageBytes_congr {mem mem' : Nat → UInt8} {f g : Nat}
    (h : ∀ j < pageSize, mem' (f + j) = mem (g + j)) : pageBytes mem' f = pageBytes mem g :=
  List.map_congr_left fun j hj => h j (List.mem_range.mp hj)

/-- A view reads only the ledger's frames: memory that agrees on them gives
the same view. -/
theorem MmStruct.view_congr (mm : MmStruct) {mem mem' : Nat → UInt8}
    (h : ∀ g ∈ mm.mapped.values, ∀ j < pageSize, mem' (g + j) = mem (g + j)) :
    mm.view mem' = mm.view mem := by
  funext va
  simp only [MmStruct.view]
  rcases hg : mm.mapped.get? va with _ | g
  · rw [Option.map_none', Option.map_none']
  · exact congrArg some (pageBytes_congr (h g
      (List.mem_map_of_mem Prod.snd ((mm.mapped.get?_eq_some_iff).mp hg))))

/-- A successful `deep_dup` with fresh frames keeps the view of every space
whose ledger frames lie apart from the new ones. -/
theorem deepDup_view_apart (p : Platform) {self dup : MmStruct} {k k' : Kernel}
    (h : self.deepDup p k = some (dup, k'))
    (hfresh : FreshFrames k.frames self.mapped.values self.mapped.size) {mm : MmStruct}
    (hapart : ∀ f ∈ dup.mapped.values, ∀ g ∈ mm.mapped.values, Apart f g) :
    mm.view k'.mem = mm.view k.mem :=
  mm.view_congr fun g hg _ hj =>
    (deepDup_mem p h hfresh).1 _ fun f hf => (hapart f hf g hg).not_inPage hj

/-- The views a successful `deep_dup` with fresh frames leaves: the
duplicate's is the source's before the call, and the source's is unchanged. -/
theorem deepDup_view_eq (p : Platform) {self dup : MmStruct} {k k' : Kernel}
    (h : self.deepDup p k = some (dup, k'))
    (hfresh : FreshFrames k.frames self.mapped.values self.mapped.size) :
    dup.view k'.mem = self.view k.mem ∧ self.view k'.mem = self.view k.mem := by
  refine ⟨funext fun va => ?_, deepDup_view_apart p h hfresh fun f hf g hg =>
    hfresh.apart_src f (deepDup_values p h ▸ hf) g hg⟩
  have hsome := BTreeMap.isSome_get?_of_keys_eq (deepDup_keys p h) va
  simp only [MmStruct.view]
  rcases hold : self.mapped.get? va with _ | old <;>
    rcases hnew : dup.mapped.get? va with _ | new <;>
    simp only [hold, hnew, Option.isSome_none, Option.isSome_some, Bool.false_eq_true,
      Bool.true_eq_false, Option.map_none'] at hsome ⊢
  exact congrArg some (pageBytes_congr ((deepDup_mem p h hfresh).2 va old new hold hnew))

/-- **Duplication copies the view.** Under the hypotheses of the page-copy
theorem, after `deep_dup` the duplicate's view is the source's view before the
call, and the source's view is unchanged. -/
theorem deepDup_view (p : Platform) (self : MmStruct) (k : Kernel)
    (hkeys : ∀ va ∈ self.mapped.keys, va % pageSize = 0)
    (hfresh : FreshFrames k.frames self.mapped.values self.mapped.size) :
    ∃ dup k', self.deepDup p k = some (dup, k') ∧
      dup.view k'.mem = self.view k.mem ∧ self.view k'.mem = self.view k.mem := by
  obtain ⟨dup, k', h⟩ := deepDup_isSome p self k hkeys hfresh
  exact ⟨dup, k', h, deepDup_view_eq p h hfresh⟩

theorem sample_deepDup_view :
    ∃ dup k', sampleMm.deepDup samplePlatform sampleKernel = some (dup, k') ∧
      dup.view k'.mem = sampleMm.view sampleKernel.mem ∧
      sampleMm.view k'.mem = sampleMm.view sampleKernel.mem :=
  deepDup_view samplePlatform sampleMm sampleKernel (by decide) (by decide)

/-- **The duplicate's table maps nothing else.** Whenever `deep_dup` returns,
the new table translates an address exactly when its page's base is a key of
the duplicate's ledger, to `virt_to_phys` of that key's frame plus the offset,
with `READ | WRITE | EXECUTE | USER`. -/
theorem deepDup_query (p : Platform) {self dup : MmStruct} {k k' : Kernel}
    (h : self.deepDup p k = some (dup, k')) (va : Nat) :
    (k'.table dup.pgd).query va = (dup.mapped.get? (va - va % pageSize)).map
      fun f => (p.virtToPhys f + va % pageSize, rwxu) :=
  query_of_entries (deepDup_table p h) va

theorem sample_deepDup_query :
    ∃ dup k', sampleMm.deepDup samplePlatform sampleKernel = some (dup, k') ∧
      (k'.table dup.pgd).query 0x1234 = some (0x90234, rwxu) := by
  obtain ⟨dup, k', h⟩ := deepDup_isSome samplePlatform sampleMm sampleKernel (by decide)
    (by decide)
  have hm : dup.mapped.get? (0x1234 - 0x1234 % pageSize) = some 0x90000 := by
    rw [BTreeMap.get?, deepDup_mapped samplePlatform h]
    decide
  refine ⟨dup, k', h, ?_⟩
  rw [deepDup_query samplePlatform h, hm]
  decide

end Lkmodel.Mm
