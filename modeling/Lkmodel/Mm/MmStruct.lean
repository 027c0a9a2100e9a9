import Mathlib.Data.List.GetD
import Lkmodel.Mm.PageTable

/-!
# `MmStruct` and `VmAreaStruct`

The address space of a process, as `mm/src/lib.rs` defines it, over the
kernel state it reads and writes:

* `Kernel.mem` — kernel virtual memory, byte by byte, where
  `copy_nonoverlapping` copies pages;
* `Kernel.frames` — the answers the global page allocator will give, in
  order; an allocator that fails has run out of answers;
* `Kernel.tables` — the page tables behind `Arc<SpinNoIrq<PageTable>>`
  handles: `Arc::new` registers a table and its handle is its index, so the
  handle a clone of the `Arc` shares is the same index;
* `Kernel.mmUniqueId` — the atomic `MM_UNIQUE_ID`, whose `fetch_add` wraps
  modulo `2^64`.

`virt_to_phys` belongs to the platform: a `Platform` is any map that keeps
page alignment, the property `map_region` needs of its physical address.

A call that panics (`unwrap` on a failed allocation or a failed
`map_region`) returns `none`. `map_region` and `unmap_region` keep in the
shared table whatever the backend did, also when it failed part-way. The `Arc` reference counts, the
`OnceCell` wrapper of `vm_file` and the debug logging have no effect on what
is modelled and are left out; a `FileRef` is the identity of its `Arc`.
-/

namespace Lkmodel.Mm

/-! ## The kernel state -/

/-- Modelled from the spec: the platform's `axhal::mem::virt_to_phys`, any map
that keeps page alignment. -/
structure Platform where
  virtToPhys : Nat → Nat
  virtToPhys_aligned : ∀ v, v % pageSize = 0 → virtToPhys v % pageSize = 0

/-- A platform whose `virt_to_phys` subtracts a page-aligned offset, as a
linear kernel mapping does. -/
def Platform.linear (offset : Nat) (h : offset % pageSize = 0) : Platform :=
  ⟨fun v => v - offset, fun v hv => by dsimp only; rw [pageSize_eq] at *; omega⟩

/-- The kernel state the address-space code touches. -/
structure Kernel where
  mem : Nat → UInt8
  frames : List Nat
  tables : List PageTable
  mmUniqueId : Nat

/-- `core::ptr::copy_nonoverlapping(src, dst, count)` on bytes. -/
def copyNonoverlapping (mem : Nat → UInt8) (src dst count : Nat) : Nat → UInt8 :=
  fun a => if dst ≤ a ∧ a < dst + count then mem (src + (a - dst)) else mem a

namespace Kernel

/-- Modelled from the spec: `global_allocator().alloc_pages(1, PAGE_SIZE)`, the
allocator's next answer, `none` when it fails (§6). -/
def allocPages (k : Kernel) : Option (Nat × Kernel) :=
  match k.frames with
  | [] => none
  | f :: fs => some (f, { k with frames := fs })

/-- `MM_UNIQUE_ID.fetch_add(1, SeqCst)` on a 64-bit `usize`. -/
def fetchAddId (k : Kernel) : Nat × Kernel :=
  (k.mmUniqueId, { k with mmUniqueId := (k.mmUniqueId + 1) % 2 ^ 64 })

/-- `Arc::new(SpinNoIrq::new(pt))`: the table's new handle. -/
def arcNew (k : Kernel) (pt : PageTable) : Nat × Kernel :=
  (k.tables.length, { k with tables := k.tables ++ [pt] })

/-- The table behind handle `h` (every handle of a reachable state is live). -/
def table (k : Kernel) (h : Nat) : PageTable := k.tables.getD h pgdAlloc

end Kernel

/-! ## The data model -/

/-- `VmAreaStruct`: the bounds, file offset, backing file and flags of one
virtual memory area. -/
structure VmAreaStruct where
  vmStart : Nat
  vmEnd : Nat
  vmPgoff : Nat
  vmFile : Option Nat
  vmFlags : Nat
deriving DecidableEq, Repr

/-- `VmAreaStruct::new`: the fields verbatim, the file (if any) set in the
`OnceCell`. -/
def VmAreaStruct.new (vmStart vmEnd vmPgoff : Nat) (vmFile : Option Nat) (vmFlags : Nat) :
    VmAreaStruct :=
  ⟨vmStart, vmEnd, vmPgoff, vmFile, vmFlags⟩

/-- `MmStruct`; `pgd` is the handle of its page table. -/
structure MmStruct where
  id : Nat
  vmas : BTreeMap VmAreaStruct
  pgd : Nat
  brk : Nat
  mapped : BTreeMap Nat
  lockedVm : Nat
deriving DecidableEq

namespace MmStruct

/-- `MmStruct::new()`. -/
def new (k : Kernel) : MmStruct × Kernel :=
  let (id, k) := k.fetchAddId
  let (pgd, k) := k.arcNew pgdAlloc
  (⟨id, .empty, pgd, 0, .empty, 0⟩, k)

/-- The first loop of `deep_dup`: every VMA cloned and inserted under its
`vm_start`. -/
def dupVmas (vmas : BTreeMap VmAreaStruct) : BTreeMap VmAreaStruct :=
  vmas.values.foldl (fun acc vma => acc.insert vma.vmStart vma) .empty

/-- The second loop of `deep_dup`, over the ledger's `(va, old_page)` entries in
key order: allocate a page, copy the old page into it, map `va` to it in the
new table, record it. -/
def dupPages (p : Platform) :
    List (Nat × Nat) → Kernel → PageTable → BTreeMap Nat →
      Option (Kernel × PageTable × BTreeMap Nat)
  | [], k, pgd, mapped => some (k, pgd, mapped)
  | (va, oldPage) :: rest, k, pgd, mapped => do
    let (newPage, k) ← k.allocPages
    let k := { k with mem := copyNonoverlapping k.mem oldPage newPage pageSize }
    let pa := p.virtToPhys newPage
    let (pgd, result) := pgd.mapRegion va pa pageSize rwxu true
    let () ← result.toOption
    dupPages p rest k pgd (mapped.insert va newPage)

/-- `MmStruct::deep_dup(&self)`. -/
def deepDup (p : Platform) (self : MmStruct) (k : Kernel) : Option (MmStruct × Kernel) := do
  let pgd := pgdAlloc
  let vmas := dupVmas self.vmas
  let (k, pgd, mapped) ← dupPages p self.mapped.toList k pgd .empty
  let (id, k) := k.fetchAddId
  let (pgd, k) := k.arcNew pgd
  return (⟨id, vmas, pgd, self.brk, mapped, self.lockedVm⟩, k)

/-- `MmStruct::set_brk`. -/
def setBrk (self : MmStruct) (brk : Nat) : MmStruct := { self with brk := brk }

/-- `MmStruct::map_region(va, pa, len, _uflags)`: through the shared table,
always with `READ | WRITE | EXECUTE | USER` and overwriting allowed; the table
keeps what the backend did and the backend's result is returned unchanged. -/
def mapRegion (self : MmStruct) (k : Kernel) (va pa len _uflags : Nat) :
    Kernel × PagingResult Unit :=
  let r := (k.table self.pgd).mapRegion va pa len rwxu true
  ({ k with tables := k.tables.set self.pgd r.1 }, r.2)

/-- `MmStruct::unmap_region(va, len)`, likewise. -/
def unmapRegion (self : MmStruct) (k : Kernel) (va len : Nat) : Kernel × PagingResult Unit :=
  let r := (k.table self.pgd).unmapRegion va len
  ({ k with tables := k.tables.set self.pgd r.1 }, r.2)

end MmStruct

/-! ## Small facts -/

namespace Kernel

@[simp] theorem fetchAddId_fst (k : Kernel) : k.fetchAddId.1 = k.mmUniqueId := rfl

@[simp] theorem fetchAddId_mmUniqueId (k : Kernel) :
    k.fetchAddId.2.mmUniqueId = (k.mmUniqueId + 1) % 2 ^ 64 := rfl

@[simp] theorem fetchAddId_tables (k : Kernel) : k.fetchAddId.2.tables = k.tables := rfl

@[simp] theorem arcNew_fst (k : Kernel) (pt : PageTable) : (k.arcNew pt).1 = k.tables.length :=
  rfl

@[simp] theorem arcNew_tables (k : Kernel) (pt : PageTable) :
    (k.arcNew pt).2.tables = k.tables ++ [pt] := rfl

@[simp] theorem arcNew_mmUniqueId (k : Kernel) (pt : PageTable) :
    (k.arcNew pt).2.mmUniqueId = k.mmUniqueId := rfl

/-- A new handle leaves the tables of the live handles as they were. -/
theorem table_arcNew_of_lt (k : Kernel) (pt : PageTable) {h : Nat} (hh : h < k.tables.length) :
    (k.arcNew pt).2.table h = k.table h := by
  simp only [table, arcNew_tables]
  exact List.getD_append _ _ _ _ hh

/-- The new handle names the registered table. -/
theorem table_arcNew_self (k : Kernel) (pt : PageTable) :
    (k.arcNew pt).2.table (k.arcNew pt).1 = pt := by
  simp [table]

/-- Writing handle `h`'s table leaves every other handle's as it was. -/
theorem table_set_ne (k : Kernel) (pt : PageTable) {h h' : Nat} (hne : h ≠ h') :
    ({ k with tables := k.tables.set h pt } : Kernel).table h' = k.table h' := by
  simp [table, List.getD_eq_getElem?_getD, List.getElem?_set, hne]

end Kernel

/-- One round of the ledger loop, inverted: what a successful round needed and
what it left. -/
theorem dupPages_cons (p : Platform) {va oldPage : Nat} {rest : List (Nat × Nat)} {k : Kernel}
    {pgd : PageTable} {mapped : BTreeMap Nat} {r : Kernel × PageTable × BTreeMap Nat} :
    MmStruct.dupPages p ((va, oldPage) :: rest) k pgd mapped = some r ↔
      ∃ f fs, k.frames = f :: fs ∧ va % pageSize = 0 ∧ p.virtToPhys f % pageSize = 0 ∧
        MmStruct.dupPages p rest
          { k with frames := fs, mem := copyNonoverlapping k.mem oldPage f pageSize }
          ⟨pgd.entries.insert va ⟨p.virtToPhys f, rwxu⟩⟩ (mapped.insert va f) = some r := by
  rcases hk : k.frames with _ | ⟨f, fs⟩
  · simp [MmStruct.dupPages, Kernel.allocPages, hk]
  · by_cases hal : va % pageSize = 0 ∧ p.virtToPhys f % pageSize = 0
    · simp only [MmStruct.dupPages, Kernel.allocPages, hk, Except.toOption,
        PageTable.mapRegion_pageSize _ _ hal.1 hal.2, Option.bind_eq_bind, Option.some_bind,
        hal.1, true_and, List.cons.injEq]
      exact ⟨fun h => ⟨f, fs, ⟨rfl, rfl⟩, hal.2, h⟩, fun ⟨_, _, ⟨h₁, h₂⟩, _, h⟩ => h₁ ▸ h₂ ▸ h⟩
    · simp only [MmStruct.dupPages, Kernel.allocPages, hk, PageTable.mapRegion, Nat.mod_self,
        and_true, if_neg hal, Except.toOption, Option.bind_eq_bind, Option.some_bind,
        Option.none_bind, reduceCtorEq, false_iff, not_exists, not_and, List.cons.injEq]
      rintro _ _ ⟨rfl, rfl⟩ h₁ h₂
      exact (hal ⟨h₁, h₂⟩).elim

end Lkmodel.Mm
