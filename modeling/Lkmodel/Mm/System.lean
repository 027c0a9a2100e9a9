import Lkmodel.Mm.DeepDup

/-!
# Address spaces over whole runs

The kernel calls the `mm` crate again and again: `MmStruct::new` and
`deep_dup` create address spaces, `set_brk`, `map_region` and `unmap_region`
change them. A `World` is the kernel state with every address space created
so far, in creation order; `World.run` performs a list of calls. Each call is
atomic here: the only state two calls could race on is `MM_UNIQUE_ID`, and
its `fetch_add` is a sequentially consistent atomic, so every interleaving
draws the ids in one total order, the order of the list.

* `MmStruct.query_mapRegion` and `MmStruct.query_unmapRegion` say what one
  call does to the space's own table; `mapRegion_unmapRegion` is the
  map-then-unmap round trip;
* `World.Inv` holds of every world a run reaches from boot: the `j`-th space
  created has id `(1 + j) mod 2^64` and its own page table;
* `run_ids` — ids are `(1 + j) mod 2^64`, so they increase strictly while
  fewer than `2^64` spaces exist; `run_reuses_id` is a run of `2^64 + 1`
  calls to `new` whose first and last spaces share id 1;
* `run_regions_isolated` — mapping or unmapping through one space never
  changes the page table of another.
-/

namespace Lkmodel.Mm

/-! ## Regions through a space's table -/

namespace MmStruct

variable (self : MmStruct) (k : Kernel)

@[simp] theorem mapRegion_snd (va pa len uflags : Nat) :
    (self.mapRegion k va pa len uflags).2 = ((k.table self.pgd).mapRegion va pa len rwxu true).2 :=
  rfl

@[simp] theorem mapRegion_mmUniqueId (va pa len uflags : Nat) :
    (self.mapRegion k va pa len uflags).1.mmUniqueId = k.mmUniqueId := rfl

@[simp] theorem mapRegion_length (va pa len uflags : Nat) :
    (self.mapRegion k va pa len uflags).1.tables.length = k.tables.length := by
  simp [mapRegion]

@[simp] theorem unmapRegion_snd (va len : Nat) :
    (self.unmapRegion k va len).2 = ((k.table self.pgd).unmapRegion va len).2 := rfl

@[simp] theorem unmapRegion_mmUniqueId (va len : Nat) :
    (self.unmapRegion k va len).1.mmUniqueId = k.mmUniqueId := rfl

@[simp] theorem unmapRegion_length (va len : Nat) :
    (self.unmapRegion k va len).1.tables.length = k.tables.length := by
  simp [unmapRegion]

/-- Mapping or unmapping through a space changes no other table. -/
theorem mapRegion_table_ne {t : Nat} (ht : t ≠ self.pgd) (va pa len uflags : Nat) :
    (self.mapRegion k va pa len uflags).1.table t = k.table t :=
  Kernel.table_set_ne _ _ (Ne.symm ht)

theorem unmapRegion_table_ne {t : Nat} (ht : t ≠ self.pgd) (va len : Nat) :
    (self.unmapRegion k va len).1.table t = k.table t :=
  Kernel.table_set_ne _ _ (Ne.symm ht)

theorem table_set_self (pt : PageTable) (hpgd : self.pgd < k.tables.length) :
    ({ k with tables := k.tables.set self.pgd pt } : Kernel).table self.pgd = pt := by
  simp [Kernel.table, List.getD_eq_getElem?_getD, List.getElem?_set, hpgd]

variable {self k}

/-- The space's own table after `map_region` is the one the backend leaves,
whatever its result. -/
theorem mapRegion_table_self {t : Nat} (hpgd : self.pgd = t) (ht : t < k.tables.length)
    (va pa len uflags : Nat) :
    (self.mapRegion k va pa len uflags).1.table t = ((k.table t).mapRegion va pa len rwxu true).1 :=
  hpgd ▸ table_set_self self k _ (hpgd ▸ ht)

/-- Likewise after `unmap_region`. -/
theorem unmapRegion_table_self {t : Nat} (hpgd : self.pgd = t) (ht : t < k.tables.length)
    (va len : Nat) :
    (self.unmapRegion k va len).1.table t = ((k.table t).unmapRegion va len).1 :=
  hpgd ▸ table_set_self self k _ (hpgd ▸ ht)

/-- `map_region` at aligned addresses succeeds and maps the range in the
space's own table. -/
theorem query_mapRegion {va pa len : Nat} (uflags : Nat) (hva : va % pageSize = 0)
    (hpa : pa % pageSize = 0) (hlen : len % pageSize = 0) (hpgd : self.pgd < k.tables.length) :
    (self.mapRegion k va pa len uflags).2 = .ok () ∧ ∀ va',
      ((self.mapRegion k va pa len uflags).1.table self.pgd).query va' =
        if va ≤ va' ∧ va' < va + len then some (pa + (va' - va), rwxu)
        else (k.table self.pgd).query va' := by
  obtain ⟨hok, hq⟩ := (k.table self.pgd).query_mapRegion rwxu true hva hpa hlen nofun
  exact ⟨hok, fun va' => by rw [mapRegion_table_self rfl hpgd, hq]⟩

/-- `unmap_region` over mapped pages succeeds and unmaps the range in the
space's own table. -/
theorem query_unmapRegion {va len : Nat} (hva : va % pageSize = 0)
    (hlen : len % pageSize = 0) (hpgd : self.pgd < k.tables.length)
    (hmapped : ∀ va', va ≤ va' → va' < va + len → ((k.table self.pgd).query va').isSome) :
    (self.unmapRegion k va len).2 = .ok () ∧ ∀ va',
      ((self.unmapRegion k va len).1.table self.pgd).query va' =
        if va ≤ va' ∧ va' < va + len then none else (k.table self.pgd).query va' := by
  obtain ⟨hok, hq⟩ := (k.table self.pgd).query_unmapRegion hva hlen hmapped
  exact ⟨hok, fun va' => by rw [unmapRegion_table_self rfl hpgd, hq]⟩

end MmStruct

/-- **Map, then unmap.** Whenever `map_region` through a space returns `Ok`,
an `unmap_region` of the same range succeeds. Afterwards the range is
unmapped in the space's table, every other address translates as before the
pair of calls, every other table is as it was, and the range can be mapped
again, to any physical address and without overwriting, with no stale entry
to make it fail with `AlreadyMapped`. -/
theorem mapRegion_unmapRegion (self : MmStruct) (k : Kernel) {va pa len : Nat} (uflags : Nat)
    (hpgd : self.pgd < k.tables.length) (hmap : (self.mapRegion k va pa len uflags).2 = .ok ()) :
    (self.unmapRegion (self.mapRegion k va pa len uflags).1 va len).2 = .ok () ∧
      (∀ va', ((self.unmapRegion (self.mapRegion k va pa len uflags).1 va len).1.table
          self.pgd).query va' =
        if va ≤ va' ∧ va' < va + len then none else (k.table self.pgd).query va') ∧
      (∀ t ≠ self.pgd,
        (self.unmapRegion (self.mapRegion k va pa len uflags).1 va len).1.table t = k.table t) ∧
      ∀ pa' flags, (((self.unmapRegion (self.mapRegion k va pa len uflags).1 va len).1.table
        self.pgd).mapRegion va pa' len flags false).2 ≠ .error .alreadyMapped := by
  obtain ⟨hva, hpa, hlen⟩ := ((k.table self.pgd).mapRegion_ok_iff rwxu).mp hmap
  obtain ⟨-, hq⟩ := MmStruct.query_mapRegion uflags hva hpa hlen hpgd
  have hpgd' : self.pgd < (self.mapRegion k va pa len uflags).1.tables.length := by simpa
  obtain ⟨hok', hq'⟩ := MmStruct.query_unmapRegion hva hlen hpgd' fun va' h₁ h₂ => by
    rw [hq, if_pos ⟨h₁, h₂⟩]; rfl
  have hafter : ∀ va', ((self.unmapRegion (self.mapRegion k va pa len uflags).1 va len).1.table
      self.pgd).query va' = if va ≤ va' ∧ va' < va + len then none
        else (k.table self.pgd).query va' := fun va' => by
    rw [hq', hq]
    split_ifs <;> rfl
  refine ⟨hok', hafter, fun t ht => ?_, fun pa' flags => ?_⟩
  · rw [MmStruct.unmapRegion_table_ne _ _ ht, MmStruct.mapRegion_table_ne _ _ ht]
  · by_cases hpa' : pa' % pageSize = 0
    · rw [(PageTable.query_mapRegion _ flags false hva hpa' hlen fun _ va' h₁ h₂ => by
        rw [hafter, if_pos ⟨h₁, h₂⟩]).1]
      nofun
    · rw [PageTable.mapRegion, if_neg fun h => hpa' h.2.1]
      nofun

theorem sample_mapRegion_unmapRegion :
    sampleMm.pgd < sampleKernel.tables.length ∧
      (sampleMm.mapRegion sampleKernel 0x3000 0x5000 0x2000 3).2 = .ok () ∧
      (sampleMm.unmapRegion (sampleMm.mapRegion sampleKernel 0x3000 0x5000 0x2000 3).1
        0x3000 0x2000).2 = .ok () ∧
      (∀ va', ((sampleMm.unmapRegion (sampleMm.mapRegion sampleKernel 0x3000 0x5000 0x2000 3).1
          0x3000 0x2000).1.table sampleMm.pgd).query va' =
        if 0x3000 ≤ va' ∧ va' < 0x3000 + 0x2000 then none
        else (sampleKernel.table sampleMm.pgd).query va') ∧
      (∀ t ≠ sampleMm.pgd, (sampleMm.unmapRegion (sampleMm.mapRegion sampleKernel 0x3000 0x5000
        0x2000 3).1 0x3000 0x2000).1.table t = sampleKernel.table t) ∧
      ∀ pa' flags, (((sampleMm.unmapRegion (sampleMm.mapRegion sampleKernel 0x3000 0x5000 0x2000
        3).1 0x3000 0x2000).1.table sampleMm.pgd).mapRegion 0x3000 pa' 0x2000 flags false).2 ≠
          .error .alreadyMapped :=
  ⟨by decide, rfl, mapRegion_unmapRegion sampleMm sampleKernel 3 (by decide) rfl⟩

/-! ## Runs -/

/-- A call into the `mm` crate; spaces are named by their creation index. -/
inductive MmCall
  | new
  | deepDup (src : Nat)
  | setBrk (mm brk : Nat)
  | mapRegion (mm va pa len uflags : Nat)
  | unmapRegion (mm va len : Nat)

/-- The kernel state with the address spaces created so far. -/
structure World where
  kernel : Kernel
  spaces : List MmStruct

namespace World

/-- The state at boot: no address space, no page table, the counter at its
initial 1. -/
def boot (mem : Nat → UInt8) (frames : List Nat) : World := ⟨⟨mem, frames, [], 1⟩, []⟩

/-- One call; `none` when it panics or names no space. -/
def step (p : Platform) (w : World) : MmCall → Option World
  | .new =>
    let (mm, k) := MmStruct.new w.kernel
    some ⟨k, w.spaces ++ [mm]⟩
  | .deepDup i => do
    let src ← w.spaces[i]?
    let (mm, k) ← src.deepDup p w.kernel
    some ⟨k, w.spaces ++ [mm]⟩
  | .setBrk i brk => do
    let mm ← w.spaces[i]?
    some ⟨w.kernel, w.spaces.set i (mm.setBrk brk)⟩
  | .mapRegion i va pa len uflags => do
    let mm ← w.spaces[i]?
    some ⟨(mm.mapRegion w.kernel va pa len uflags).1, w.spaces⟩
  | .unmapRegion i va len => do
    let mm ← w.spaces[i]?
    some ⟨(mm.unmapRegion w.kernel va len).1, w.spaces⟩

/-- A list of calls, in order; `none` once one of them panics. -/
def run (p : Platform) : World → List MmCall → Option World
  | w, [] => some w
  | w, c :: cs => (w.step p c).bind fun w' => run p w' cs

/-- What every reachable world satisfies: the `j`-th space created has its own
table, handle `j`, and id `(1 + j) mod 2^64`; the counter stands at the next
id. -/
structure Inv (w : World) : Prop where
  tables : w.kernel.tables.length = w.spaces.length
  pgd : ∀ j (hj : j < w.spaces.length), w.spaces[j].pgd = j
  id : ∀ j (hj : j < w.spaces.length), w.spaces[j].id = (1 + j) % 2 ^ 64
  counter : w.kernel.mmUniqueId = (1 + w.spaces.length) % 2 ^ 64

theorem inv_boot (mem : Nat → UInt8) (frames : List Nat) : (boot mem frames).Inv :=
  ⟨rfl, fun _ hj => absurd hj (Nat.not_lt_zero _), fun _ hj => absurd hj (Nat.not_lt_zero _),
    rfl⟩

/-- Appending a space created with the counter's id and a fresh table keeps
the invariant. -/
theorem Inv.create {w : World} (hw : w.Inv) {mm : MmStruct} {k : Kernel}
    (hid : mm.id = w.kernel.mmUniqueId) (hpgd : mm.pgd = w.kernel.tables.length)
    (hcounter : k.mmUniqueId = (w.kernel.mmUniqueId + 1) % 2 ^ 64)
    (htables : k.tables.length = w.kernel.tables.length + 1) : (World.mk k (w.spaces ++ [mm])).Inv := by
  refine ⟨by simp [htables, hw.tables], fun j hj => ?_, fun j hj => ?_, ?_⟩
  · simp only [List.length_append, List.length_singleton] at hj
    rw [List.getElem_append]
    split_ifs with h
    · exact hw.pgd j h
    · simp only [List.getElem_singleton, hpgd, hw.tables]; omega
  · simp only [List.length_append, List.length_singleton] at hj
    rw [List.getElem_append]
    split_ifs with h
    · exact hw.id j h
    · simp only [List.getElem_singleton, hid, hw.counter]
      congr 1; omega
  · simp only [hcounter, hw.counter, List.length_append, List.length_singleton, Nat.mod_add_mod,
      Nat.add_assoc]

/-- Replacing a space by one with the same id and table keeps the invariant. -/
theorem Inv.set {w : World} (hw : w.Inv) {i : Nat} {mm : MmStruct} (hi : i < w.spaces.length)
    (hid : mm.id = w.spaces[i].id) (hpgd : mm.pgd = w.spaces[i].pgd) :
    (World.mk w.kernel (w.spaces.set i mm)).Inv := by
  refine ⟨by simpa using hw.tables, fun j hj => ?_, fun j hj => ?_, by simpa using hw.counter⟩
  · simp only [List.length_set] at hj
    rw [List.getElem_set]
    split_ifs with h
    · subst h; rw [hpgd, hw.pgd i hi]
    · exact hw.pgd j hj
  · simp only [List.length_set] at hj
    rw [List.getElem_set]
    split_ifs with h
    · subst h; rw [hid, hw.id i hi]
    · exact hw.id j hj

/-- Changing only the tables, none added, keeps the invariant. -/
theorem Inv.retable {w : World} (hw : w.Inv) {k : Kernel}
    (hlen : k.tables.length = w.kernel.tables.length) (hid : k.mmUniqueId = w.kernel.mmUniqueId) :
    (World.mk k w.spaces).Inv :=
  ⟨hlen.trans hw.tables, hw.pgd, hw.id, hid.trans hw.counter⟩

/-- Every call keeps the invariant. -/
theorem Inv.step {p : Platform} {w w' : World} (hw : w.Inv) :
    ∀ c, w.step p c = some w' → w'.Inv
  | .new, h => by
    cases h
    exact hw.create rfl rfl rfl (by simp [MmStruct.new])
  | .deepDup i, h => by
    simp only [World.step, Option.bind_eq_bind, Option.bind_eq_some] at h
    obtain ⟨src, -, ⟨mm, k⟩, hdup, h⟩ := h
    cases h
    obtain ⟨hid, hpgd, hcounter, htables⟩ := deepDup_draws p hdup
    exact hw.create hid hpgd hcounter htables
  | .setBrk i brk, h => by
    simp only [World.step, Option.bind_eq_bind, Option.bind_eq_some] at h
    obtain ⟨mm, hmm, h⟩ := h
    cases h
    obtain ⟨hi, rfl⟩ := List.getElem?_eq_some_iff.mp hmm
    exact hw.set hi rfl rfl
  | .mapRegion i va pa len uflags, h => by
    simp only [World.step, Option.bind_eq_bind, Option.bind_eq_some] at h
    obtain ⟨mm, -, h⟩ := h
    cases h
    exact hw.retable (by simp) (by simp)
  | .unmapRegion i va len, h => by
    simp only [World.step, Option.bind_eq_bind, Option.bind_eq_some] at h
    obtain ⟨mm, -, h⟩ := h
    cases h
    exact hw.retable (by simp) (by simp)

/-- Every run keeps the invariant. -/
theorem Inv.run {p : Platform} : ∀ {w w' : World} (cs : List MmCall), w.Inv →
    World.run p w cs = some w' → w'.Inv
  | _, _, [], hw, h => by cases h; exact hw
  | w, _, c :: cs, hw, h => by
    simp only [World.run, Option.bind_eq_some] at h
    obtain ⟨w₁, h₁, h⟩ := h
    exact Inv.run cs (hw.step c h₁) h

end World

/-! ## Ids -/

/-- **Address-space ids.** In every run from boot, the `j`-th address space
created (in the order the counter was drawn) has id `(1 + j) mod 2^64`; so
while fewer than `2^64` spaces have been created, the ids increase strictly in
creation order and no two are equal. -/
theorem run_ids (p : Platform) (mem : Nat → UInt8) (frames : List Nat) (calls : List MmCall)
    {w : World} (h : World.run p (World.boot mem frames) calls = some w) :
    (∀ j (hj : j < w.spaces.length), w.spaces[j].id = (1 + j) % 2 ^ 64) ∧
      (w.spaces.length < 2 ^ 64 → (w.spaces.map MmStruct.id).Pairwise (· < ·)) := by
  have hw := World.Inv.run calls (World.inv_boot mem frames) h
  refine ⟨hw.id, fun hlen => List.pairwise_iff_getElem.mpr fun i j hi hj hij => ?_⟩
  simp only [List.length_map] at hi hj
  simp only [List.getElem_map, hw.id i hi, hw.id j hj]
  rw [Nat.mod_eq_of_lt (by omega), Nat.mod_eq_of_lt (by omega)]
  omega

theorem sample_run_ids :
    ∃ w, World.run samplePlatform (World.boot (fun _ => 0) []) [.new, .new, .deepDup 0] = some w ∧
      (∀ j (hj : j < w.spaces.length), w.spaces[j].id = (1 + j) % 2 ^ 64) ∧
      (w.spaces.length < 2 ^ 64 → (w.spaces.map MmStruct.id).Pairwise (· < ·)) := by
  obtain ⟨w, hw⟩ : ∃ w, World.run samplePlatform (World.boot (fun _ => 0) [])
      [.new, .new, .deepDup 0] = some w := ⟨_, rfl⟩
  exact ⟨w, hw, run_ids samplePlatform _ _ _ hw⟩

/-- `n` calls to `new` always run, and add `n` spaces. -/
theorem run_replicate_new (p : Platform) :
    ∀ (n : Nat) (w : World), ∃ w', World.run p w (List.replicate n .new) = some w' ∧
      w'.spaces.length = w.spaces.length + n
  | 0, w => ⟨w, rfl, rfl⟩
  | n + 1, w => by
    obtain ⟨w', h, hlen⟩ := run_replicate_new p n (World.mk (MmStruct.new w.kernel).2
      (w.spaces ++ [(MmStruct.new w.kernel).1]))
    exact ⟨w', h, by simp [hlen]; omega⟩

/-- The counter wraps: after `2^64 + 1` calls to `new`, the first and the last
space have the same id 1. -/
theorem run_reuses_id :
    ∃ w, World.run samplePlatform (World.boot (fun _ => 0) []) (List.replicate (2 ^ 64 + 1) .new) =
        some w ∧ (w.spaces[0]?).map MmStruct.id = some 1 ∧
      (w.spaces[2 ^ 64]?).map MmStruct.id = some 1 := by
  obtain ⟨w, h, hlen⟩ := run_replicate_new samplePlatform (2 ^ 64 + 1) (World.boot (fun _ => 0) [])
  have hw := World.Inv.run _ (World.inv_boot _ _) h
  simp only [World.boot, List.length_nil, Nat.zero_add] at hlen
  refine ⟨w, h, ?_, ?_⟩
  · rw [List.getElem?_eq_getElem (by omega), Option.map_some', hw.id 0 (by omega)]
    rfl
  · rw [List.getElem?_eq_getElem (by omega), Option.map_some', hw.id _ (by omega)]
    rfl

/-! ## Isolation of page tables -/

/-- **Page tables are per space.** In every run from boot, any two spaces have
different page tables, so a `map_region` or `unmap_region` through one of them
leaves the other's table as it was. -/
theorem run_regions_isolated (p : Platform) (mem : Nat → UInt8) (frames : List Nat)
    (calls : List MmCall) {w : World} (h : World.run p (World.boot mem frames) calls = some w)
    {i j : Nat} (hi : i < w.spaces.length) (hj : j < w.spaces.length) (hij : i ≠ j) :
    w.spaces[i].pgd ≠ w.spaces[j].pgd ∧
      (∀ va pa len uflags, (w.spaces[i].mapRegion w.kernel va pa len uflags).1.table
        w.spaces[j].pgd = w.kernel.table w.spaces[j].pgd) ∧
      ∀ va len, (w.spaces[i].unmapRegion w.kernel va len).1.table w.spaces[j].pgd =
        w.kernel.table w.spaces[j].pgd := by
  have hw := World.Inv.run calls (World.inv_boot mem frames) h
  have hne : w.spaces[j].pgd ≠ w.spaces[i].pgd := by
    rw [hw.pgd i hi, hw.pgd j hj]; exact Ne.symm hij
  exact ⟨Ne.symm hne, fun va pa len uflags => MmStruct.mapRegion_table_ne _ _ hne _ _ _ _,
    fun va len => MmStruct.unmapRegion_table_ne _ _ hne _ _⟩

theorem sample_run_regions_isolated :
    ∃ w, World.run samplePlatform (World.boot (fun _ => 0) []) [.new, .new] = some w ∧
      ∃ (hi : 0 < w.spaces.length) (hj : 1 < w.spaces.length),
      w.spaces[0].pgd ≠ w.spaces[1].pgd ∧
      (∀ va pa len uflags, (w.spaces[0].mapRegion w.kernel va pa len uflags).1.table
        w.spaces[1].pgd = w.kernel.table w.spaces[1].pgd) ∧
      ∀ va len, (w.spaces[0].unmapRegion w.kernel va len).1.table w.spaces[1].pgd =
        w.kernel.table w.spaces[1].pgd := by
  obtain ⟨w, hw⟩ : ∃ w, World.run samplePlatform (World.boot (fun _ => 0) []) [.new, .new] =
      some w := ⟨_, rfl⟩
  have hlen : w.spaces.length = 2 := by
    simp only [World.run, World.step, Option.bind_eq_bind, Option.some_bind, Option.some.injEq]
      at hw
    subst hw; rfl
  exact ⟨w, hw, by omega, by omega,
    run_regions_isolated samplePlatform _ _ _ hw (by omega) (by omega) (by decide)⟩

end Lkmodel.Mm
