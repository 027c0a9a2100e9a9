import Lkmodel.Mm.BTreeMap

/-!
# The page-table backend

`page_table::paging::PageTable` is not among the sources; the address-space
code reaches it only through `pgd_alloc()`, `map_region(va, pa, len, flags,
overwrite)` and `unmap_region(va, len)`. This module models that interface as
the specification states it (§2, §4.3, §6, §7): a table maps 4 KiB virtual
pages to physical pages with access flags.

Both calls take `&mut self`, so each returns the table it leaves together with
its result. `map_region` fails with `NotAligned`, before touching the table,
unless `va`, `pa` and `len` are page-aligned; otherwise it maps the range page
by page and stops at the first page that fails (`AlreadyMapped`, at a page
already mapped, unless overwriting is allowed). `unmap_region` checks
alignment likewise and then removes page by page, stopping with `NotMapped` at
the first page that is not mapped. Failures are surfaced and never retried or
rolled back (§7): the pages a failing call had already mapped or removed stay
so.

**Assumption.** The backend always finds a frame for an intermediate table:
the exhaustion failure that §4.3 and §7 list is not modelled, so an aligned,
overwriting `map_region` always succeeds. What `deep_dup` is proved to do
rests on this (its `unwrap` of `map_region` would otherwise panic), and so
does the fact that a space's table follows from the calls made through it
alone; the map-then-unmap round trip does not, as it starts from a
`map_region` that returned `Ok`.

The results are the translations the calls leave behind:

* `query_mapRegion` — an aligned `map_region` that overwrites, or maps over a
  range where nothing is mapped, succeeds; every address of the range
  translates to `pa` plus its offset from `va` with the given flags, and every
  other address translates as before;
* `unmapPages_spec` — the unmap loop removes the longest run of mapped pages
  from `va`, and fails exactly when that run stops short;
* `query_unmapRegion` — hence an aligned `unmap_region` over mapped pages
  succeeds and leaves the range untranslated and every other address as
  before.
-/

namespace Lkmodel.Mm

/-- Modelled from the spec: `axconfig::PAGE_SIZE`, the fixed page size. -/
def pageSize : Nat := 4096

theorem pageSize_eq : pageSize = 4096 := rfl

/-- Modelled from the spec: `page_table::paging::MappingFlags`, by its bits. -/
structure MappingFlags where
  bits : Nat
deriving DecidableEq, Repr

namespace MappingFlags

/-- `MappingFlags::READ`. -/
def read : MappingFlags := ⟨1⟩
/-- `MappingFlags::WRITE`. -/
def write : MappingFlags := ⟨2⟩
/-- `MappingFlags::EXECUTE`. -/
def execute : MappingFlags := ⟨4⟩
/-- `MappingFlags::USER`. -/
def user : MappingFlags := ⟨8⟩

instance : OrOp MappingFlags := ⟨fun a b => ⟨a.bits ||| b.bits⟩⟩

end MappingFlags

/-- `READ | WRITE | EXECUTE | USER`, the flags that `deep_dup` and
`MmStruct::map_region` both pass. -/
def rwxu : MappingFlags :=
  .read ||| .write ||| .execute ||| .user

/-- Modelled from the spec: the `page_table::paging::PagingError`s the
modelled calls return (§7 without table exhaustion). -/
inductive PagingError
  | notAligned
  | notMapped
  | alreadyMapped
deriving DecidableEq, Repr

/-- Modelled from the spec: `page_table::paging::PagingResult`. -/
abbrev PagingResult (α : Type) := Except PagingError α

/-- The entry of one mapped page. -/
structure PageEntry where
  paddr : Nat
  flags : MappingFlags
deriving DecidableEq, Repr

/-- Modelled from the spec: a page table, the entry of each mapped page keyed
by the page's virtual base address. -/
structure PageTable where
  entries : BTreeMap PageEntry
deriving DecidableEq

/-- Modelled from the spec: `pgd_alloc()`, a fresh table with nothing
mapped (§4.4 step 1). -/
def pgdAlloc : PageTable := ⟨.empty⟩

namespace PageTable

/-- Mapping one page. -/
def mapPage (pt : PageTable) (va pa : Nat) (flags : MappingFlags) (overwrite : Bool) :
    PagingResult PageTable :=
  if !overwrite && (pt.entries.get? va).isSome then .error .alreadyMapped
  else .ok ⟨pt.entries.insert va ⟨pa, flags⟩⟩

/-- The page loop of `map_region`: `n` pages from `va` to `pa` on. It stops at
the first page that fails; the pages mapped before it stay mapped. -/
def mapPages (flags : MappingFlags) (overwrite : Bool) :
    PageTable → Nat → Nat → Nat → PageTable × PagingResult Unit
  | pt, _, _, 0 => (pt, .ok ())
  | pt, va, pa, n + 1 =>
    match pt.mapPage va pa flags overwrite with
    | .ok pt' => mapPages flags overwrite pt' (va + pageSize) (pa + pageSize) n
    | .error e => (pt, .error e)

/-- Modelled from the spec: `PageTable::map_region(va, pa, len, flags,
overwrite)`, the table it leaves and its result. -/
def mapRegion (pt : PageTable) (va pa len : Nat) (flags : MappingFlags) (overwrite : Bool) :
    PageTable × PagingResult Unit :=
  if va % pageSize = 0 ∧ pa % pageSize = 0 ∧ len % pageSize = 0 then
    mapPages flags overwrite pt va pa (len / pageSize)
  else (pt, .error .notAligned)

/-- Unmapping one page. -/
def unmapPage (pt : PageTable) (va : Nat) : PagingResult PageTable :=
  if (pt.entries.get? va).isSome then .ok ⟨pt.entries.remove va⟩ else .error .notMapped

/-- The page loop of `unmap_region`. It stops at the first page that is not
mapped; the pages removed before it stay removed. -/
def unmapPages : PageTable → Nat → Nat → PageTable × PagingResult Unit
  | pt, _, 0 => (pt, .ok ())
  | pt, va, n + 1 =>
    match pt.unmapPage va with
    | .ok pt' => unmapPages pt' (va + pageSize) n
    | .error e => (pt, .error e)

/-- Modelled from the spec: `PageTable::unmap_region(va, len)`, the table it
leaves and its result. -/
def unmapRegion (pt : PageTable) (va len : Nat) : PageTable × PagingResult Unit :=
  if va % pageSize = 0 ∧ len % pageSize = 0 then unmapPages pt va (len / pageSize)
  else (pt, .error .notAligned)

/-- Modelled from the spec: `PageTable::query(va)`, the physical address `va`
translates to, with the flags of its page. -/
def query (pt : PageTable) (va : Nat) : Option (Nat × MappingFlags) :=
  (pt.entries.get? (va - va % pageSize)).map fun e => (e.paddr + va % pageSize, e.flags)

/-! ## One page -/

/-- The base of the page of `va'` is the aligned `va` exactly when `va'` lies in
`va`'s page. -/
theorem pageBase_eq_iff {va va' : Nat} (hva : va % pageSize = 0) :
    va' - va' % pageSize = va ↔ va ≤ va' ∧ va' < va + pageSize := by
  rw [pageSize_eq] at *; omega

/-- At a page base, a table translates exactly when it holds an entry there. -/
theorem query_isSome_iff (pt : PageTable) {va : Nat} (hva : va % pageSize = 0) :
    (pt.query va).isSome ↔ (pt.entries.get? va).isSome := by
  simp [query, hva]

theorem query_insert (m : BTreeMap PageEntry) {va : Nat} (e : PageEntry)
    (hva : va % pageSize = 0) (va' : Nat) :
    query ⟨m.insert va e⟩ va' =
      if va ≤ va' ∧ va' < va + pageSize then some (e.paddr + (va' - va), e.flags)
      else query ⟨m⟩ va' := by
  simp only [query, BTreeMap.get?_insert]
  by_cases h : va ≤ va' ∧ va' < va + pageSize
  · have hoff : va' % pageSize = va' - va := by rw [pageSize_eq] at *; omega
    rw [(pageBase_eq_iff hva).mpr h, if_pos rfl, if_pos h, hoff]
    rfl
  · simp [h, mt (pageBase_eq_iff hva).mp h]

theorem query_remove (m : BTreeMap PageEntry) {va : Nat} (hva : va % pageSize = 0)
    (va' : Nat) :
    query ⟨m.remove va⟩ va' =
      if va ≤ va' ∧ va' < va + pageSize then none else query ⟨m⟩ va' := by
  simp only [query, BTreeMap.get?_remove]
  by_cases h : va ≤ va' ∧ va' < va + pageSize
  · simp [h, (pageBase_eq_iff hva).mpr h]
  · simp [h, mt (pageBase_eq_iff hva).mp h]

/-- A one-page overwriting `map_region` at aligned addresses inserts the page. -/
theorem mapRegion_pageSize (pt : PageTable) {va pa : Nat} (flags : MappingFlags)
    (hva : va % pageSize = 0) (hpa : pa % pageSize = 0) :
    pt.mapRegion va pa pageSize flags true =
      (⟨pt.entries.insert va ⟨pa, flags⟩⟩, .ok ()) := by
  rw [mapRegion, if_pos ⟨hva, hpa, Nat.mod_self _⟩, Nat.div_self (by decide)]
  rfl

/-! ## Regions -/

/-- `n` page maps from aligned `va` and `pa`, overwriting or over pages that
are not mapped: the loop runs to the end, every address of the range
translates into the new pages, and every other address as before. -/
theorem query_mapPages (flags : MappingFlags) (overwrite : Bool) :
    ∀ (n : Nat) (pt : PageTable) (va pa : Nat), va % pageSize = 0 → pa % pageSize = 0 →
      (overwrite = false →
        ∀ va', va ≤ va' → va' < va + n * pageSize → pt.query va' = none) →
      (mapPages flags overwrite pt va pa n).2 = .ok () ∧
        ∀ va', (mapPages flags overwrite pt va pa n).1.query va' =
          if va ≤ va' ∧ va' < va + n * pageSize then some (pa + (va' - va), flags)
          else pt.query va'
  | 0, pt, _, _, _, _, _ => ⟨rfl, fun va' => by rw [if_neg (by omega)]; rfl⟩
  | n + 1, pt, va, pa, hva, hpa, hfree => by
    have hpage :
        pt.mapPage va pa flags overwrite = .ok ⟨pt.entries.insert va ⟨pa, flags⟩⟩ := by
      cases overwrite
      · have hnone := hfree rfl va le_rfl (by rw [pageSize_eq]; omega)
        have : (pt.entries.get? va).isSome = false := by
          rw [← Bool.not_eq_true, ← query_isSome_iff pt hva, hnone]; decide
        simp [mapPage, this]
      · rfl
    obtain ⟨hok, hq⟩ := query_mapPages flags overwrite n
      ⟨pt.entries.insert va ⟨pa, flags⟩⟩ (va + pageSize) (pa + pageSize) (by rw [pageSize_eq] at *; omega)
      (by rw [pageSize_eq] at *; omega) fun ho va' h₁ h₂ => by
        rw [query_insert _ _ hva, if_neg (by omega)]
        exact hfree ho va' (by omega) (by rw [Nat.succ_mul]; omega)
    simp only [mapPages, hpage]
    refine ⟨hok, fun va' => ?_⟩
    rw [hq, query_insert _ _ hva]
    rw [pageSize_eq] at *
    split_ifs <;> first | omega | (simp only [Option.some.injEq, Prod.mk.injEq, and_true] <;> omega)

/-- **Mapping a region.** An aligned `map_region` that overwrites, or maps
over a range where nothing is mapped, succeeds, translates every address of
`[va, va + len)` to `pa` plus its offset with `flags`, and leaves every other
translation as it was. -/
theorem query_mapRegion (pt : PageTable) {va pa len : Nat} (flags : MappingFlags)
    (overwrite : Bool) (hva : va % pageSize = 0) (hpa : pa % pageSize = 0)
    (hlen : len % pageSize = 0)
    (hfree : overwrite = false → ∀ va', va ≤ va' → va' < va + len → pt.query va' = none) :
    (pt.mapRegion va pa len flags overwrite).2 = .ok () ∧
      ∀ va', (pt.mapRegion va pa len flags overwrite).1.query va' =
        if va ≤ va' ∧ va' < va + len then some (pa + (va' - va), flags) else pt.query va' := by
  have hn : len / pageSize * pageSize = len := Nat.div_mul_cancel (Nat.dvd_of_mod_eq_zero hlen)
  obtain ⟨hok, hq⟩ := query_mapPages flags overwrite (len / pageSize) pt va pa hva hpa
    (by rwa [hn])
  rw [mapRegion, if_pos ⟨hva, hpa, hlen⟩]
  exact ⟨hok, fun va' => by rw [hq, hn]⟩

/-- An overwriting `map_region` succeeds exactly at aligned arguments. -/
theorem mapRegion_ok_iff (pt : PageTable) {va pa len : Nat} (flags : MappingFlags) :
    (pt.mapRegion va pa len flags true).2 = .ok () ↔
      va % pageSize = 0 ∧ pa % pageSize = 0 ∧ len % pageSize = 0 := by
  constructor
  · intro h
    by_contra hal
    rw [mapRegion, if_neg hal] at h
    cases h
  · rintro ⟨hva, hpa, hlen⟩
    exact (query_mapRegion pt flags true hva hpa hlen nofun).1

/-- **What the unmap loop does.** From an aligned `va` it removes the longest
run of mapped pages, `m` of the `n` it was asked for, and fails with
`NotMapped` exactly when that run stops short, at a page that is not mapped;
every address outside the removed pages translates as before. -/
theorem unmapPages_spec : ∀ (n : Nat) (pt : PageTable) (va : Nat), va % pageSize = 0 →
    ∃ m ≤ n, (∀ va', va ≤ va' → va' < va + m * pageSize → (pt.query va').isSome) ∧
      (unmapPages pt va n).2 = (if m = n then .ok () else .error .notMapped) ∧
      (m < n → pt.query (va + m * pageSize) = none) ∧
      ∀ va', (unmapPages pt va n).1.query va' =
        if va ≤ va' ∧ va' < va + m * pageSize then none else pt.query va'
  | 0, pt, _, _ =>
    ⟨0, le_rfl, fun _ _ _ => by omega, rfl, nofun, fun _ => by rw [if_neg (by omega)]; rfl⟩
  | n + 1, pt, va, hva => by
    by_cases hsome : (pt.entries.get? va).isSome
    · have hpage : pt.unmapPage va = .ok ⟨pt.entries.remove va⟩ := by simp [unmapPage, hsome]
      obtain ⟨m, hm, hmapped, hres, hstop, hq⟩ :=
        unmapPages_spec n ⟨pt.entries.remove va⟩ (va + pageSize)
          (by rw [pageSize_eq] at *; omega)
      have hrest : ∀ va', ¬(va ≤ va' ∧ va' < va + pageSize) →
          query ⟨pt.entries.remove va⟩ va' = pt.query va' := fun va' h => by
        rw [query_remove _ hva, if_neg h]
      simp only [unmapPages, hpage]
      refine ⟨m + 1, by omega, fun va' h₁ h₂ => ?_,
        by simp only [hres, Nat.add_right_cancel_iff], fun h => ?_, fun va' => ?_⟩
      · by_cases hfirst : va' < va + pageSize
        · simpa [query, (pageBase_eq_iff hva).mpr ⟨h₁, hfirst⟩] using hsome
        · rw [← hrest va' (by omega)]
          exact hmapped va' (by omega) (by rw [Nat.succ_mul] at h₂; omega)
      · have := hstop (by omega)
        rwa [hrest _ (by omega), show va + pageSize + m * pageSize = va + (m + 1) * pageSize by
          rw [Nat.succ_mul]; omega] at this
      · rw [hq, query_remove _ hva]
        rw [pageSize_eq] at *
        split_ifs <;> first | omega | rfl
    · have hpage : pt.unmapPage va = .error .notMapped := by simp [unmapPage, hsome]
      simp only [unmapPages, hpage]
      refine ⟨0, by omega, fun _ _ _ => by omega, by simp, fun _ => ?_,
        fun _ => by rw [if_neg (by omega)]⟩
      simpa [query, hva] using hsome

/-- **Unmapping a region.** An aligned `unmap_region` over a range whose
addresses all translate succeeds and leaves the range untranslated and every
other translation as it was. -/
theorem query_unmapRegion (pt : PageTable) {va len : Nat} (hva : va % pageSize = 0)
    (hlen : len % pageSize = 0)
    (hmapped : ∀ va', va ≤ va' → va' < va + len → (pt.query va').isSome) :
    (pt.unmapRegion va len).2 = .ok () ∧ ∀ va', (pt.unmapRegion va len).1.query va' =
      if va ≤ va' ∧ va' < va + len then none else pt.query va' := by
  have hn : len / pageSize * pageSize = len := Nat.div_mul_cancel (Nat.dvd_of_mod_eq_zero hlen)
  obtain ⟨m, hm, -, hres, hstop, hq⟩ := unmapPages_spec (len / pageSize) pt va hva
  have hall : m = len / pageSize := by
    by_contra hne
    have hlt : m < len / pageSize := by omega
    have := hmapped (va + m * pageSize) (Nat.le_add_right _ _)
      (by simp only [pageSize_eq] at hn hlt ⊢; omega)
    rw [hstop hlt] at this
    cases this
  subst hall
  rw [unmapRegion, if_pos ⟨hva, hlen⟩, hres, if_pos rfl]
  exact ⟨rfl, fun va' => by rw [hq, hn]⟩

end PageTable

end Lkmodel.Mm
