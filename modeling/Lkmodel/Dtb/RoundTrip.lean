import Lkmodel.Dtb.Layout

/-!
# What `parse` hands its callback

The results on whole trees, from `parse_laidOut`:

* `parse_reads_laid_out_tree` — on a blob holding a well-formed tree at a
  4-aligned `off_struct`, `DeviceTree::parse` calls the callback once per
  node in preorder with the node's name and properties, and returns the end
  of the encoding; `axdtb::parse` on such a blob behind a valid header makes
  the same calls and returns;
* `parse_cells_are_own` — the cell counts each call receives are those the
  node's own properties leave, not the ones it inherits
  (`parse_cells_not_inherited` is a blob where the two differ);
* `parse_rejects_nop` — the token dispatch has no `FDT_NOP`: a `NOP` at a
  token boundary of the sample blob ends the property loop and makes the
  `END_NODE` check fail, so the blob goes from accepted to rejected.
-/

namespace Lkmodel.Dtb

/-- The 24-byte header at `ptr`: magic number, `totalsize`, the offsets of
the structure and strings blocks, and version 17. -/
structure HeaderAt (mem : Nat → UInt8) (ptr totalsize offStruct offStrings : Nat) : Prop where
  magic : BytesAt (rawSlice mem ptr 24) 0 (be32 0xd00dfeed)
  totalsize_at : BytesAt (rawSlice mem ptr 24) 4 (be32 totalsize)
  offStruct_at : BytesAt (rawSlice mem ptr 24) 8 (be32 offStruct)
  offStrings_at : BytesAt (rawSlice mem ptr 24) 12 (be32 offStrings)
  version : BytesAt (rawSlice mem ptr 24) 20 (be32 17)
  totalsize_lt : totalsize < 2 ^ 32
  offStruct_lt : offStruct < 2 ^ 32
  offStrings_lt : offStrings < 2 ^ 32

theorem init_of_header {mem : Nat → UInt8} {ptr totalsize offStruct offStrings : Nat}
    (h : HeaderAt mem ptr totalsize offStruct offStrings) :
    DeviceTree.init mem ptr = .ok (DeviceTree.ofHeader ptr (UInt32.ofNat totalsize)
      (UInt32.ofNat offStruct) (UInt32.ofNat offStrings)) := by
  have hlim : (24 : Nat) < usizeLimit := by unfold usizeLimit; omega
  simp [DeviceTree.init, readBeU32_be32 h.magic (by omega) (by omega),
    readBeU32_be32 h.version (by omega) (by omega),
    readBeU32_be32 h.totalsize_at h.totalsize_lt (by omega),
    readBeU32_be32 h.offStruct_at h.offStruct_lt (by omega),
    readBeU32_be32 h.offStrings_at h.offStrings_lt (by omega)]
  constructor

/-- `DeviceTree::parse` from `off_struct` on a blob that holds a well-formed
tree there. -/
theorem DeviceTree.parse_laidOut (dt : DeviceTree) (mem : Nat → UInt8) {t : Node} (hwf : t.WF)
    (hat : t.LaidOut (dt.buf mem) dt.offStrings dt.offStruct) (halign : dt.offStruct % 4 = 0)
    (addrCells sizeCells : Nat) :
    dt.parse mem dt.offStruct addrCells sizeCells =
      (t.events addrCells sizeCells, .ok (dt.offStruct + t.encLen)) :=
  (Lkmodel.Dtb.parse_laidOut (by simpa using dt.totalsize_lt) dt.offStrings_lt _).1 t _ _ _ hat hwf
    halign (by simp; omega)

/-- `axdtb::parse` on a valid header and a well-formed tree. -/
theorem parse_of_header {mem : Nat → UInt8} {ptr totalsize offStruct offStrings : Nat}
    (h : HeaderAt mem ptr totalsize offStruct offStrings) {t : Node} (hwf : t.WF)
    (hat : t.LaidOut (rawSlice mem ptr totalsize) offStrings offStruct)
    (halign : offStruct % 4 = 0) :
    parse mem ptr = (t.events 0 0, .ok ()) := by
  have e1 : (UInt32.ofNat totalsize).toNat = totalsize := UInt32.toNat_ofNat_of_lt h.totalsize_lt
  have e2 : (UInt32.ofNat offStruct).toNat = offStruct := UInt32.toNat_ofNat_of_lt h.offStruct_lt
  have e3 : (UInt32.ofNat offStrings).toNat = offStrings :=
    UInt32.toNat_ofNat_of_lt h.offStrings_lt
  have hdt := DeviceTree.parse_laidOut (DeviceTree.ofHeader ptr (UInt32.ofNat totalsize)
    (UInt32.ofNat offStruct) (UInt32.ofNat offStrings)) mem hwf
    (by simpa [DeviceTree.buf, DeviceTree.ofHeader, e1, e2, e3] using hat)
    (by simpa [DeviceTree.ofHeader, e2] using halign) 0 0
  unfold parse
  rw [init_of_header h]
  simp only [unwrap, DeviceTree.ofHeader, e2] at hdt ⊢
  rw [hdt]
  rfl

/-! ## The sample blob's tree

The tree `sampleBlob` encodes: a root that declares `#address-cells = 2` and
has one child `c`. -/

/-- The sample tree. -/
def sampleTree : Node := .mk [] [⟨addressCellsName, [0, 0, 0, 2]⟩] [.mk [0x63] [] []]

theorem sampleTree_wf : sampleTree.WF := by
  simp [sampleTree, Node.WF, Node.ListWF, Property.WF]
  decide

theorem sampleTree_laidOut :
    sampleTree.LaidOut (sampleDt.buf sampleMem) sampleDt.offStrings sampleDt.offStruct := by
  have hbuf : sampleDt.buf sampleMem = sampleBlob := by decide
  rw [hbuf]
  simp only [sampleTree, sampleDt, Node.LaidOut, Node.ListLaidOut, PropsAt, PropAt, Node.listLen,
    Node.encLen, propsLen]
  refine ⟨by decide, by decide, ⟨⟨by decide, by decide, 0, by decide, by decide, by decide,
    by decide⟩, trivial⟩, ⟨⟨by decide, by decide, trivial, trivial, by decide⟩, trivial⟩,
    by decide⟩

/-! ## Callbacks on whole trees -/

/-- **The structure block round trip.** Take a well-formed tree laid out at a
4-aligned `off_struct` of the blob (its names and property names at the
offsets its records give in the strings block, its padding arbitrary).
`DeviceTree::parse(off_struct, a, s, cb)` calls `cb` once per node in
preorder, with the node's name and its properties in order, values byte for
byte, and returns `Ok` of the end of the encoding. Behind a valid header,
`axdtb::parse` makes the same calls and returns. -/
theorem parse_reads_laid_out_tree :
    (∀ (dt : DeviceTree) (mem : Nat → UInt8) (t : Node), t.WF →
      t.LaidOut (dt.buf mem) dt.offStrings dt.offStruct → dt.offStruct % 4 = 0 →
      ∀ a s, (dt.parse mem dt.offStruct a s).1.map NodeEvent.nameProps = t.preorder ∧
        (dt.parse mem dt.offStruct a s).2 = .ok (dt.offStruct + t.encLen)) ∧
    (∀ (mem : Nat → UInt8) (ptr totalsize offStruct offStrings : Nat) (t : Node),
      HeaderAt mem ptr totalsize offStruct offStrings → t.WF →
      t.LaidOut (rawSlice mem ptr totalsize) offStrings offStruct → offStruct % 4 = 0 →
      (parse mem ptr).1.map NodeEvent.nameProps = t.preorder ∧ (parse mem ptr).2 = .ok ()) := by
  refine ⟨fun dt mem t hwf hat halign a s => ?_, fun mem ptr _ _ _ t h hwf hat halign => ?_⟩
  · rw [DeviceTree.parse_laidOut dt mem hwf hat halign]
    exact ⟨Node.events_nameProps t a s, rfl⟩
  · rw [parse_of_header h hwf hat halign]
    exact ⟨Node.events_nameProps t 0 0, rfl⟩

/-- The round trip at the sample blob. -/
theorem sample_parse_reads_tree :
    sampleTree.WF ∧
      sampleTree.LaidOut (sampleDt.buf sampleMem) sampleDt.offStrings sampleDt.offStruct ∧
      sampleDt.offStruct % 4 = 0 ∧
      (sampleDt.parse sampleMem sampleDt.offStruct 0 0).1.map NodeEvent.nameProps =
        sampleTree.preorder ∧
      (sampleDt.parse sampleMem sampleDt.offStruct 0 0).2 =
        .ok (sampleDt.offStruct + sampleTree.encLen) :=
  ⟨sampleTree_wf, sampleTree_laidOut, rfl, parse_reads_laid_out_tree.1 sampleDt sampleMem
    sampleTree sampleTree_wf sampleTree_laidOut rfl 0 0⟩

/-- **The cell counts the callback receives.** On a well-formed laid-out tree,
each node's call gets the cell counts in effect after the node's own
properties: its last `#address-cells` (`#size-cells`) if it declares one,
else the value its parent's call got, `a` (`s`) at the root. These are the
counts its children's addresses use. -/
theorem parse_cells_are_own (dt : DeviceTree) (mem : Nat → UInt8) {t : Node} (hwf : t.WF)
    (hat : t.LaidOut (dt.buf mem) dt.offStrings dt.offStruct) (halign : dt.offStruct % 4 = 0)
    (a s : Nat) :
    (dt.parse mem dt.offStruct a s).1.map NodeEvent.cells = t.cellTrace a s := by
  rw [DeviceTree.parse_laidOut dt mem hwf hat halign]
  exact Node.events_cells t a s

/-- The cell counts at the sample blob. -/
theorem sample_parse_cells :
    sampleTree.WF ∧
      sampleTree.LaidOut (sampleDt.buf sampleMem) sampleDt.offStrings sampleDt.offStruct ∧
      sampleDt.offStruct % 4 = 0 ∧
      (sampleDt.parse sampleMem sampleDt.offStruct 0 0).1.map NodeEvent.cells =
        sampleTree.cellTrace 0 0 :=
  ⟨sampleTree_wf, sampleTree_laidOut, rfl,
    parse_cells_are_own sampleDt sampleMem sampleTree_wf sampleTree_laidOut rfl 0 0⟩

/-- The sample root declares `#address-cells = 2` and has no ancestor, so
decoding its own `reg` would use the initial 0; its call gets 2. -/
theorem parse_cells_not_inherited :
    sampleTree.WF ∧
      sampleTree.LaidOut (sampleDt.buf sampleMem) sampleDt.offStrings sampleDt.offStruct ∧
      sampleDt.offStruct % 4 = 0 ∧
      (sampleDt.parse sampleMem sampleDt.offStruct 0 0).1.map NodeEvent.cells ≠
        sampleTree.inheritedCells 0 0 :=
  ⟨sampleTree_wf, sampleTree_laidOut, rfl, by decide⟩

/-! ## `FDT_NOP` -/

/-- The sample blob with the token `FDT_NOP` (`0x00000004`) inserted before
the root's property record, the strings block moved along. -/
def nopBlob : Bytes := sampleBlob.take 8 ++ be32 4 ++ sampleBlob.drop 8

/-- Kernel memory with `nopBlob` at address 0. -/
def nopMem (i : Nat) : UInt8 := nopBlob.getD i 0

/-- `nopBlob` as `DeviceTree::init` would describe it. -/
def nopDt : DeviceTree := ⟨0, 59, 0, 44, by decide, by decide, by decide⟩

/-- The dispatch knows `BEGIN_NODE`, `PROP` and `END_NODE` only: at the `NOP`
the property loop stops, the root's call goes out without its property, and
the `END_NODE` check fails at the `NOP`. Without it the same tree gives two
calls and `Ok(40)`. -/
theorem parse_rejects_nop :
    nopDt.parse nopMem 0 0 0 = ([⟨[], 0, 0, []⟩], .error (.err (.parseError 8))) ∧
      sampleDt.parse sampleMem 0 0 0 =
        ([⟨[], 2, 0, [(addressCellsName, [0, 0, 0, 2])]⟩, ⟨[0x63], 2, 0, []⟩], .ok 40) := by
  decide

end Lkmodel.Dtb
