import Lkmodel.Dtb.SliceRead

/-!
# `DeviceTree::parse`

The parser of `lib.rs` walks the structure block of a flattened device tree.
One call reads a node: its `BEGIN_NODE` token and name, then its properties
(updating `#address-cells` and `#size-cells` on the way), then hands the node
to the callback, then parses every child by recursion, and last checks the
`END_NODE` token. It returns the position after that token.

The callback's only effect is what it receives, so the model returns the list
of its calls (`NodeEvent`s) beside the result; calls made before an error
stay in the list, as they happened. The recursion and the two loops run on a
fuel argument; running out of it is the `Fault.outOfFuel` of the model, never
a behaviour of the code, and `DeviceTree.parse` supplies `totalsize + 1`.
-/

namespace Lkmodel.Dtb

/-! ## Constants and the helpers `parse` calls -/

def magicNumber : UInt32 := 0xd00dfeed
def supportedVersion : UInt32 := 17
def ofDtBeginNode : UInt32 := 0x00000001
def ofDtEndNode : UInt32 := 0x00000002
def ofDtProp : UInt32 := 0x00000003

/-- The ASCII bytes of a string literal. -/
def ascii (s : String) : Bytes := s.toList.map fun c => c.toNat.toUInt8

/-- `"#address-cells"`. -/
def addressCellsName : Bytes := ascii "#address-cells"

/-- `"#size-cells"`. -/
def sizeCellsName : Bytes := ascii "#size-cells"

/-- `align_up(addr, align)` of `axtype` (not under src/):
`(addr + align - 1) & !(align - 1)`, that is `addr` rounded up to a multiple
of the power of two `align`. The addition `addr + align` comes first and is
checked; the subtraction of 1 cannot underflow since `align ≥ 1`. -/
def alignUp (addr align : Nat) : DeviceTreeResult Nat := do
  let top ← usizeAdd addr align
  return (top - 1) / align * align

/-- The second byte of a multi-byte UTF-8 sequence led by `b`
(Unicode Table 3-7). -/
def utf8SecondOk (b c : UInt8) : Bool :=
  if b = 0xE0 then 0xA0 ≤ c && c ≤ 0xBF
  else if b = 0xED then 0x80 ≤ c && c ≤ 0x9F
  else if b = 0xF0 then 0x90 ≤ c && c ≤ 0xBF
  else if b = 0xF4 then 0x80 ≤ c && c ≤ 0x8F
  else 0x80 ≤ c && c ≤ 0xBF

/-- A continuation byte `10xxxxxx`. -/
def utf8Cont (c : UInt8) : Bool := 0x80 ≤ c && c ≤ 0xBF

/-- Well-formed UTF-8, the check `core::str::from_utf8` makes. -/
def utf8Valid : Bytes → Bool
  | [] => true
  | b :: bs =>
    if b < 0x80 then utf8Valid bs
    else if 0xC2 ≤ b && b ≤ 0xDF then
      match bs with
      | c :: rest => utf8Cont c && utf8Valid rest
      | [] => false
    else if 0xE0 ≤ b && b ≤ 0xEF then
      match bs with
      | c₁ :: c₂ :: rest => utf8SecondOk b c₁ && utf8Cont c₂ && utf8Valid rest
      | _ => false
    else if 0xF0 ≤ b && b ≤ 0xF4 then
      match bs with
      | c₁ :: c₂ :: c₃ :: rest =>
        utf8SecondOk b c₁ && utf8Cont c₂ && utf8Cont c₃ && utf8Valid rest
      | _ => false
    else false

/-- `str::from_utf8(bytes)?.to_owned()`: the bytes themselves, once checked. -/
def fromUtf8 (bs : Bytes) : DeviceTreeResult Bytes :=
  if utf8Valid bs then .ok bs else .error (.err .utf8Error)

theorem alignUp_of_lt {addr : Nat} (h : addr + 4 < usizeLimit) :
    alignUp addr 4 = .ok ((addr + 3) / 4 * 4) := by
  simp [alignUp, usizeAdd_of_lt h]

theorem returns_alignUp {addr : Nat} (h : addr + 4 < usizeLimit) :
    Returns (alignUp addr 4) (· = (addr + 3) / 4 * 4) := by
  simp [alignUp_of_lt h]

theorem fromUtf8_of_valid {bs : Bytes} (h : utf8Valid bs = true) : fromUtf8 bs = .ok bs := by
  simp [fromUtf8, h]

theorem returns_fromUtf8 (bs : Bytes) : Returns (fromUtf8 bs) (· = bs) := by
  unfold fromUtf8; split <;> simp

/-! ## The parser -/

/-- One call of `cb(name, addr_cells, size_cells, props)`. -/
structure NodeEvent where
  name : Bytes
  addrCells : Nat
  sizeCells : Nat
  props : List (Bytes × Bytes)
  deriving DecidableEq, Repr

/-- One round of the property loop after its `PROP` token: the property at
`pos`, the cell counts after it, and `align_up(val_end, 4)`, where the next
token is. -/
def readProp (buf : Bytes) (offStrings pos addrCells sizeCells : Nat) :
    DeviceTreeResult ((Bytes × Bytes) × Nat × Nat × Nat) := do
  let valSize := (← readBeU32 buf (← usizeAdd pos 4)).toNat
  let nameOffset := (← readBeU32 buf (← usizeAdd pos 8)).toNat
  let valStart ← usizeAdd pos 12
  let valEnd ← usizeAdd valStart valSize
  let val ← subslice buf valStart valEnd
  let propName ← fromUtf8 (← readBstring0 buf (← usizeAdd offStrings nameOffset))
  let cells : Nat × Nat ←
    if propName = addressCellsName then pure ((← readBeU32 val 0).toNat, sizeCells)
    else if propName = sizeCellsName then pure (addrCells, (← readBeU32 val 0).toNat)
    else pure (addrCells, sizeCells)
  return ((propName, val), cells.1, cells.2, ← alignUp valEnd 4)

/-- The loop `while buf.read_be_u32(pos)? == OF_DT_PROP`, at most `fuel` rounds.
It returns the properties pushed so far, the cell counts and the position of
the first token that is not `PROP`. -/
def readProps (buf : Bytes) (offStrings : Nat) :
    Nat → Nat → Nat → Nat → List (Bytes × Bytes) →
      DeviceTreeResult (List (Bytes × Bytes) × Nat × Nat × Nat)
  | 0, _, _, _, _ => .error .outOfFuel
  | fuel + 1, pos, addrCells, sizeCells, props => do
    if (← readBeU32 buf pos) ≠ ofDtProp then return (props, addrCells, sizeCells, pos)
    let (prop, addrCells, sizeCells, pos) ← readProp buf offStrings pos addrCells sizeCells
    readProps buf offStrings fuel pos addrCells sizeCells (props ++ [prop])

/-- What `parse` does for one node before its callback: the `BEGIN_NODE`
check, the name, the property loop and the UTF-8 check of the name. It returns
the callback's arguments and the position after the properties. -/
def parseHead (buf : Bytes) (offStrings fuel pos addrCells sizeCells : Nat) :
    DeviceTreeResult (NodeEvent × Nat) := do
  if (← readBeU32 buf pos) ≠ ofDtBeginNode then throw (.err (.parseError pos))
  let pos ← usizeAdd pos 4
  let rawName ← readBstring0 buf pos
  let pos ← alignUp (← usizeAdd (← usizeAdd pos rawName.length) 1) 4
  let (props, addrCells, sizeCells, pos) ← readProps buf offStrings fuel pos addrCells sizeCells []
  let name ← fromUtf8 rawName
  return (⟨name, addrCells, sizeCells, props⟩, pos)

mutual

/-- The body of `parse` on fuel: the head, the callback, then the children. -/
def parseNode (buf : Bytes) (offStrings : Nat) :
    Nat → Nat → Nat → Nat → List NodeEvent × DeviceTreeResult Nat
  | 0, _, _, _ => ([], .error .outOfFuel)
  | fuel + 1, pos, addrCells, sizeCells =>
    match parseHead buf offStrings fuel pos addrCells sizeCells with
    | .error f => ([], .error f)
    | .ok (ev, pos) =>
      let (evs, r) := parseChildren buf offStrings fuel pos ev.addrCells ev.sizeCells
      (ev :: evs, r)
termination_by structural fuel => fuel

/-- The loop `while buf.read_be_u32(pos)? == OF_DT_BEGIN_NODE` over the
children, then the `END_NODE` check and the final `pos += 4`. -/
def parseChildren (buf : Bytes) (offStrings : Nat) :
    Nat → Nat → Nat → Nat → List NodeEvent × DeviceTreeResult Nat
  | 0, _, _, _ => ([], .error .outOfFuel)
  | fuel + 1, pos, addrCells, sizeCells =>
    match readBeU32 buf pos with
    | .error f => ([], .error f)
    | .ok tok =>
      if tok = ofDtBeginNode then
        match parseNode buf offStrings fuel pos addrCells sizeCells with
        | (evs, .ok p) =>
          let (evs', r) := parseChildren buf offStrings fuel p addrCells sizeCells
          (evs ++ evs', r)
        | (evs, .error f) => (evs, .error f)
      else if tok ≠ ofDtEndNode then ([], .error (.err (.parseError pos)))
      else ([], usizeAdd pos 4)
termination_by structural fuel => fuel

end

/-! ## One step of the recursion -/

section Steps

variable (buf : Bytes) (offStrings fuel pos addrCells sizeCells : Nat)

theorem parseNode_succ :
    parseNode buf offStrings (fuel + 1) pos addrCells sizeCells =
      match parseHead buf offStrings fuel pos addrCells sizeCells with
      | .error f => ([], .error f)
      | .ok (ev, q) =>
        (ev :: (parseChildren buf offStrings fuel q ev.addrCells ev.sizeCells).1,
          (parseChildren buf offStrings fuel q ev.addrCells ev.sizeCells).2) := by
  simp only [parseNode]

theorem parseChildren_succ :
    parseChildren buf offStrings (fuel + 1) pos addrCells sizeCells =
      match readBeU32 buf pos with
      | .error f => ([], .error f)
      | .ok tok =>
        if tok = ofDtBeginNode then
          match parseNode buf offStrings fuel pos addrCells sizeCells with
          | (evs, .ok p) =>
            (evs ++ (parseChildren buf offStrings fuel p addrCells sizeCells).1,
              (parseChildren buf offStrings fuel p addrCells sizeCells).2)
          | (evs, .error f) => (evs, .error f)
        else if tok ≠ ofDtEndNode then ([], .error (.err (.parseError pos)))
        else ([], usizeAdd pos 4) := by
  simp only [parseChildren]

end Steps

/-- `core::slice::from_raw_parts(ptr, len)` over kernel memory. -/
def rawSlice (mem : Nat → UInt8) (ptr len : Nat) : Bytes :=
  (List.range len).map fun i => mem (ptr + i)

@[simp] theorem length_rawSlice (mem : Nat → UInt8) (ptr len : Nat) :
    (rawSlice mem ptr len).length = len := by
  simp [rawSlice]

/-- `DeviceTree`: where the blob is and the header fields the parser keeps.
Only `init` builds one, from `u32` header words, so each field is below
`2^32`. -/
structure DeviceTree where
  ptr : Nat
  totalsize : Nat
  offStruct : Nat
  offStrings : Nat
  totalsize_lt : totalsize < 2 ^ 32
  offStruct_lt : offStruct < 2 ^ 32
  offStrings_lt : offStrings < 2 ^ 32

/-- The slice `parse` reads: `totalsize` bytes at `ptr`. -/
def DeviceTree.buf (dt : DeviceTree) (mem : Nat → UInt8) : Bytes :=
  rawSlice mem dt.ptr dt.totalsize

@[simp] theorem DeviceTree.length_buf (dt : DeviceTree) (mem : Nat → UInt8) :
    (dt.buf mem).length = dt.totalsize :=
  length_rawSlice _ _ _

/-- `DeviceTree::parse(pos, addr_cells, size_cells, cb)`: the callback's calls
and the result. -/
def DeviceTree.parse (dt : DeviceTree) (mem : Nat → UInt8) (pos addrCells sizeCells : Nat) :
    List NodeEvent × DeviceTreeResult Nat :=
  parseNode (dt.buf mem) dt.offStrings (dt.totalsize + 1) pos addrCells sizeCells

/-- A `DeviceTree` from the three header words. -/
def DeviceTree.ofHeader (ptr : Nat) (totalsize offStruct offStrings : UInt32) : DeviceTree where
  ptr := ptr
  totalsize := totalsize.toNat
  offStruct := offStruct.toNat
  offStrings := offStrings.toNat
  totalsize_lt := totalsize.toNat_lt_size
  offStruct_lt := offStruct.toNat_lt_size
  offStrings_lt := offStrings.toNat_lt_size

/-- `DeviceTree::init(ptr)`: checks the magic number and the version in the
24-byte header, then keeps `totalsize`, `off_dt_struct` and
`off_dt_strings`. -/
def DeviceTree.init (mem : Nat → UInt8) (ptr : Nat) : DeviceTreeResult DeviceTree := do
  let buf := rawSlice mem ptr 24
  if (← readBeU32 buf 0) ≠ magicNumber then throw (.err .badMagicNumber)
  if (← readBeU32 buf 20) ≠ supportedVersion then throw (.err .versionNotSupported)
  let totalsize ← readBeU32 buf 4
  let offStruct ← readBeU32 buf 8
  let offStrings ← readBeU32 buf 12
  return DeviceTree.ofHeader ptr totalsize offStruct offStrings

/-- `.unwrap()`: an `Err` becomes a panic. -/
def unwrap {α : Type} : DeviceTreeResult α → DeviceTreeResult α
  | .error (.err _) => .error .panic
  | r => r

/-- `axdtb::parse(dtb_va, cb)`: `init(dtb_va).unwrap()`, then
`parse(off_struct, 0, 0, cb).unwrap()`. -/
def parse (mem : Nat → UInt8) (dtbVa : Nat) : List NodeEvent × DeviceTreeResult Unit :=
  match unwrap (DeviceTree.init mem dtbVa) with
  | .error f => ([], .error f)
  | .ok dt =>
    let (evs, r) := dt.parse mem dt.offStruct 0 0
    (evs, (unwrap r).map fun _ => ())

end Lkmodel.Dtb
