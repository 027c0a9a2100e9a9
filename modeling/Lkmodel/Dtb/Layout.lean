import Lkmodel.Dtb.Safety

/-!
# Device trees laid out in a blob

A device tree is a node with a name, an ordered list of properties (name and
byte value) and an ordered list of children. `Node.LaidOut` says where its
structure-block encoding stands in a blob: `BEGIN_NODE`, the name and a NUL,
padding to a 4-byte boundary, one record per property (`PROP`, the value's
length, a name offset into the strings block, the value, padding), the
children, `END_NODE`. Padding bytes are left arbitrary, and each property
may name its string at any offset where the strings block holds it.

`Node.events` is what the parser should hand its callback: one call per node
in preorder, with the cell counts the node's own properties leave.
`parse_laidOut` proves that `parse` makes exactly these calls and
returns the end of the encoding, by induction on the fuel with the tree
generalised.
-/

namespace Lkmodel.Dtb

/-! ## Trees and their encoding lengths -/

/-- A property: its name and its value. -/
structure Property where
  name : Bytes
  value : Bytes
  deriving DecidableEq, Repr

/-- A device-tree node: name, properties in order, children in order. -/
inductive Node where
  | mk (name : Bytes) (props : List Property) (children : List Node)

/-- `n` rounded up to a multiple of four: a field with its padding. -/
def pad4 (n : Nat) : Nat := (n + 3) / 4 * 4

/-- The length of a property record: `PROP`, length, name offset, padded value. -/
def Property.recLen (pr : Property) : Nat := 12 + pad4 pr.value.length

/-- The length of the records of a property list. -/
def propsLen : List Property → Nat
  | [] => 0
  | pr :: rest => pr.recLen + propsLen rest

/-- Where a node's property records start, relative to its `BEGIN_NODE`. -/
def nameLen (name : Bytes) : Nat := 4 + pad4 (name.length + 1)

mutual

/-- The length of a node's encoding. -/
def Node.encLen : Node → Nat
  | .mk name props children => nameLen name + propsLen props + Node.listLen children + 4
termination_by structural t => t

/-- The length of the encodings of a list of siblings. -/
def Node.listLen : List Node → Nat
  | [] => 0
  | c :: cs => c.encLen + Node.listLen cs
termination_by structural cs => cs

end

theorem pad4_mod (n : Nat) : pad4 n % 4 = 0 := by
  unfold pad4; omega

theorem le_pad4 (n : Nat) : n ≤ pad4 n := by
  unfold pad4; omega

theorem propsLen_mod : ∀ props : List Property, propsLen props % 4 = 0
  | [] => rfl
  | pr :: rest => by
    have := pad4_mod pr.value.length
    have := propsLen_mod rest
    simp only [propsLen, Property.recLen]
    omega

mutual

theorem Node.encLen_mod : ∀ t : Node, t.encLen % 4 = 0 ∧ 12 ≤ t.encLen
  | .mk name props children => by
    have := pad4_mod (name.length + 1)
    have := le_pad4 (name.length + 1)
    have := propsLen_mod props
    have := Node.listLen_mod children
    simp only [Node.encLen, nameLen]
    omega

theorem Node.listLen_mod : ∀ cs : List Node, Node.listLen cs % 4 = 0
  | [] => rfl
  | c :: cs => by
    have := (Node.encLen_mod c).1
    have := Node.listLen_mod cs
    simp only [Node.listLen]
    omega

end

/-! ## The layout in a blob -/

/-- The blob holds property `pr`'s record at `q`: the `PROP` token, the
value's length, a name offset under which the strings block holds the name
and a NUL, and the value. -/
def PropAt (buf : Bytes) (offStrings q : Nat) (pr : Property) : Prop :=
  BytesAt buf q (be32 3) ∧ BytesAt buf (q + 4) (be32 pr.value.length) ∧
    ∃ off < 2 ^ 32, BytesAt buf (q + 8) (be32 off) ∧ BytesAt buf (q + 12) pr.value ∧
      BytesAt buf (offStrings + off) (pr.name ++ [0])

/-- The blob holds the records of `props` one after another from `q`. -/
def PropsAt (buf : Bytes) (offStrings : Nat) : List Property → Nat → Prop
  | [], _ => True
  | pr :: rest, q => PropAt buf offStrings q pr ∧ PropsAt buf offStrings rest (q + pr.recLen)

mutual

/-- The blob holds node `t`'s encoding from `p`: `BEGIN_NODE`, the name and
its NUL, the property records, the children, `END_NODE`. -/
def Node.LaidOut (buf : Bytes) (offStrings : Nat) : Node → Nat → Prop
  | .mk name props children, p =>
    BytesAt buf p (be32 1) ∧ BytesAt buf (p + 4) (name ++ [0]) ∧
      PropsAt buf offStrings props (p + nameLen name) ∧
      Node.ListLaidOut buf offStrings children (p + nameLen name + propsLen props) ∧
      BytesAt buf (p + nameLen name + propsLen props + Node.listLen children) (be32 2)
termination_by structural t => t

/-- The blob holds the encodings of `cs` one after another from `p`. -/
def Node.ListLaidOut (buf : Bytes) (offStrings : Nat) : List Node → Nat → Prop
  | [], _ => True
  | c :: cs, p => c.LaidOut buf offStrings p ∧ Node.ListLaidOut buf offStrings cs (p + c.encLen)
termination_by structural cs => cs

end

/-- A property the parser accepts: a NUL-free UTF-8 name, and a value of at
least four bytes when it is one of the two cell counts. -/
def Property.WF (pr : Property) : Prop :=
  0 ∉ pr.name ∧ utf8Valid pr.name = true ∧
    (pr.name = addressCellsName ∨ pr.name = sizeCellsName → 4 ≤ pr.value.length)

mutual

/-- Every name in the tree is NUL-free UTF-8 and every property is `WF`. -/
def Node.WF : Node → Prop
  | .mk name props children =>
    0 ∉ name ∧ utf8Valid name = true ∧ (∀ pr ∈ props, pr.WF) ∧ Node.ListWF children
termination_by structural t => t

/-- `Node.WF` for each sibling. -/
def Node.ListWF : List Node → Prop
  | [] => True
  | c :: cs => c.WF ∧ Node.ListWF cs
termination_by structural cs => cs

end

/-! ## What the callback should receive -/

/-- One property's effect on a cell count: the first four bytes of its value
when it is named `key`. -/
def cellStep (key : Bytes) (c : Nat) (pr : Property) : Nat :=
  if pr.name = key then beNat (pr.value.take 4) else c

/-- The cell count after a node's properties, from the inherited one. -/
def cellsAfter (key : Bytes) (inherited : Nat) (props : List Property) : Nat :=
  props.foldl (cellStep key) inherited

/-- The `(name, value)` pairs of a property list. -/
def propPairs (props : List Property) : List (Bytes × Bytes) :=
  props.map fun pr => (pr.name, pr.value)

mutual

/-- The callback calls of a tree, in preorder: each node with the cell
counts its own properties leave, which its children inherit. -/
def Node.events : Node → Nat → Nat → List NodeEvent
  | .mk name props children, a, s =>
    ⟨name, cellsAfter addressCellsName a props, cellsAfter sizeCellsName s props,
      propPairs props⟩ ::
      Node.listEvents children (cellsAfter addressCellsName a props)
        (cellsAfter sizeCellsName s props)
termination_by structural t => t

/-- The callback calls of a list of siblings, one after another. -/
def Node.listEvents : List Node → Nat → Nat → List NodeEvent
  | [], _, _ => []
  | c :: cs, a, s => c.events a s ++ Node.listEvents cs a s
termination_by structural cs => cs

end

mutual

/-- Each node's name and `(name, value)` properties, in preorder. -/
def Node.preorder : Node → List (Bytes × List (Bytes × Bytes))
  | .mk name props children => (name, propPairs props) :: Node.listPreorder children
termination_by structural t => t

/-- `Node.preorder` of each sibling, one after another. -/
def Node.listPreorder : List Node → List (Bytes × List (Bytes × Bytes))
  | [] => []
  | c :: cs => c.preorder ++ Node.listPreorder cs
termination_by structural cs => cs

end

mutual

/-- The cell counts in effect at each node, in preorder: the last
`#address-cells` (`#size-cells`) among the node's own properties, else the
ones it inherits, which are the initial ones at the root. -/
def Node.cellTrace : Node → Nat → Nat → List (Nat × Nat)
  | .mk _ props children, a, s =>
    (cellsAfter addressCellsName a props, cellsAfter sizeCellsName s props) ::
      Node.listCellTrace children (cellsAfter addressCellsName a props)
        (cellsAfter sizeCellsName s props)
termination_by structural t => t

/-- `Node.cellTrace` of each sibling, one after another. -/
def Node.listCellTrace : List Node → Nat → Nat → List (Nat × Nat)
  | [], _, _ => []
  | c :: cs, a, s => c.cellTrace a s ++ Node.listCellTrace cs a s
termination_by structural cs => cs

end

mutual

/-- The cell counts the devicetree specification prescribes for decoding
each node's own `reg`, in preorder: those of its nearest strict ancestor that
declares them, the initial ones when none does. -/
def Node.inheritedCells : Node → Nat → Nat → List (Nat × Nat)
  | .mk _ props children, a, s =>
    (a, s) :: Node.listInheritedCells children (cellsAfter addressCellsName a props)
      (cellsAfter sizeCellsName s props)
termination_by structural t => t

/-- `Node.inheritedCells` of each sibling, one after another. -/
def Node.listInheritedCells : List Node → Nat → Nat → List (Nat × Nat)
  | [], _, _ => []
  | c :: cs, a, s => c.inheritedCells a s ++ Node.listInheritedCells cs a s
termination_by structural cs => cs

end

/-- The name and properties of a callback call. -/
def NodeEvent.nameProps (e : NodeEvent) : Bytes × List (Bytes × Bytes) := (e.name, e.props)

/-- The cell counts of a callback call. -/
def NodeEvent.cells (e : NodeEvent) : Nat × Nat := (e.addrCells, e.sizeCells)

mutual

theorem Node.events_nameProps : ∀ (t : Node) (a s : Nat),
    (t.events a s).map NodeEvent.nameProps = t.preorder
  | .mk _ _ children, _, _ => by
    simp [Node.events, Node.preorder, NodeEvent.nameProps, Node.listEvents_nameProps children]
termination_by structural t => t

theorem Node.listEvents_nameProps : ∀ (cs : List Node) (a s : Nat),
    (Node.listEvents cs a s).map NodeEvent.nameProps = Node.listPreorder cs
  | [], _, _ => rfl
  | c :: cs, a, s => by
    simp [Node.listEvents, Node.listPreorder, Node.events_nameProps c,
      Node.listEvents_nameProps cs]
termination_by structural cs => cs

end

mutual

theorem Node.events_cells : ∀ (t : Node) (a s : Nat),
    (t.events a s).map NodeEvent.cells = t.cellTrace a s
  | .mk _ _ children, _, _ => by
    simp [Node.events, Node.cellTrace, NodeEvent.cells, Node.listEvents_cells children]
termination_by structural t => t

theorem Node.listEvents_cells : ∀ (cs : List Node) (a s : Nat),
    (Node.listEvents cs a s).map NodeEvent.cells = Node.listCellTrace cs a s
  | [], _, _ => rfl
  | c :: cs, a, s => by
    simp [Node.listEvents, Node.listCellTrace, Node.events_cells c, Node.listEvents_cells cs]
termination_by structural cs => cs

end

/-! ## Reading a laid-out tree -/

theorem addressCellsName_ne_sizeCellsName : addressCellsName ≠ sizeCellsName := by decide

section Parse

variable {buf : Bytes} {offStrings : Nat}

/-- A laid-out property record is read whole: its name and value, the cell
counts after it, and where the next record starts. -/
theorem readProp_laidOut {q : Nat} {pr : Property} (hat : PropAt buf offStrings q pr)
    (hwf : pr.WF) (hq : q % 4 = 0) (hend : q + 12 + pr.value.length < buf.length)
    (hL : buf.length < 2 ^ 32) (hoff : offStrings < 2 ^ 32) (addrCells sizeCells : Nat) :
    readProp buf offStrings q addrCells sizeCells =
      .ok ((pr.name, pr.value), cellStep addressCellsName addrCells pr,
        cellStep sizeCellsName sizeCells pr, q + pr.recLen) := by
  obtain ⟨-, hlen, off, hoffLt, hoffAt, hval, hname⟩ := hat
  have hlim : 2 ^ 34 < usizeLimit := by unfold usizeLimit; omega
  have e1 := readBeU32_be32 hlen (by omega) (by omega)
  have e2 := readBeU32_be32 hoffAt hoffLt (by omega)
  have e3 := subslice_of_bytesAt hval hend
  have e4 := readBstring0_of_bytesAt hname hwf.1
  have e5 := fromUtf8_of_valid hwf.2.1
  have e6 : alignUp (q + 12 + pr.value.length) 4 = .ok (q + (12 + pad4 pr.value.length)) := by
    rw [alignUp_of_lt (by omega)]; unfold pad4; congr 1; omega
  simp only [readProp, usizeAdd_of_lt (show q + 4 < usizeLimit by omega), e1, ok_bind,
    usizeAdd_of_lt (show q + 8 < usizeLimit by omega), e2,
    usizeAdd_of_lt (show q + 12 < usizeLimit by omega),
    UInt32.toNat_ofNat_of_lt (show pr.value.length < UInt32.size by unfold UInt32.size; omega),
    UInt32.toNat_ofNat_of_lt (show off < UInt32.size by unfold UInt32.size; omega),
    usizeAdd_of_lt (show q + 12 + pr.value.length < usizeLimit by omega), e3,
    usizeAdd_of_lt (show offStrings + off < usizeLimit by omega), e4, e5, pure_bind, e6,
    cellStep, Property.recLen]
  have hlim0 : 0 + 4 < usizeLimit := by omega
  by_cases h1 : pr.name = addressCellsName
  · have h2 : pr.name ≠ sizeCellsName := h1 ▸ addressCellsName_ne_sizeCellsName
    obtain ⟨x, hx, hv⟩ := readBeU32_ok_beNat pr.value hlim0 (hwf.2.2 (.inl h1))
    simp [if_pos h1, if_neg h2, hx, hv, e6]
  by_cases h2 : pr.name = sizeCellsName
  · obtain ⟨x, hx, hv⟩ := readBeU32_ok_beNat pr.value hlim0 (hwf.2.2 (.inr h2))
    simp [if_neg h1, if_pos h2, hx, hv, e6]
  · simp [if_neg h1, if_neg h2, e6]

theorem be32_token_begin : UInt32.ofNat 1 = ofDtBeginNode := rfl
theorem be32_token_end : UInt32.ofNat 2 = ofDtEndNode := rfl
theorem be32_token_prop : UInt32.ofNat 3 = ofDtProp := rfl

/-- The property loop reads a laid-out list whole and stops at the token
after it. -/
theorem readProps_laidOut (hL : buf.length < 2 ^ 32) (hoff : offStrings < 2 ^ 32) :
    ∀ (props : List Property) (fuel q addrCells sizeCells : Nat) (acc : List (Bytes × Bytes)),
      PropsAt buf offStrings props q → (∀ pr ∈ props, pr.WF) → q % 4 = 0 →
      (∃ tok, readBeU32 buf (q + propsLen props) = .ok tok ∧ tok ≠ ofDtProp) →
      buf.length - q < fuel →
      readProps buf offStrings fuel q addrCells sizeCells acc =
        .ok (acc ++ propPairs props, cellsAfter addressCellsName addrCells props,
          cellsAfter sizeCellsName sizeCells props, q + propsLen props)
  | [], fuel, q, addrCells, sizeCells, acc, _, _, _, ⟨tok, htok, hne⟩, hfuel => by
    obtain ⟨f, rfl⟩ : ∃ f, fuel = f + 1 := ⟨fuel - 1, by omega⟩
    simp only [propsLen, Nat.add_zero] at htok
    simp [readProps, htok, hne, propPairs, cellsAfter, propsLen]
  | pr :: rest, fuel, q, addrCells, sizeCells, acc, ⟨hpr, hrest⟩, hwf, hq, ⟨tok, htok, hne⟩,
      hfuel => by
    obtain ⟨f, rfl⟩ : ∃ f, fuel = f + 1 := ⟨fuel - 1, by omega⟩
    have hnext := readBeU32_ok_le htok
    have hrec := le_pad4 pr.value.length
    have hrestMod := propsLen_mod rest
    simp only [propsLen, Property.recLen] at hnext htok
    have hprop := readBeU32_be32 hpr.1 (by omega) (by unfold usizeLimit; omega)
    rw [be32_token_prop] at hprop
    have ih := readProps_laidOut hL hoff rest f (q + pr.recLen)
      (cellStep addressCellsName addrCells pr) (cellStep sizeCellsName sizeCells pr)
      (acc ++ [(pr.name, pr.value)]) hrest (fun x hx => hwf x (List.mem_cons_of_mem _ hx))
      (by have := pad4_mod pr.value.length; simp only [Property.recLen]; omega)
      ⟨tok, by simpa [Property.recLen, Nat.add_assoc] using htok, hne⟩
      (by simp only [Property.recLen]; omega)
    have hhead := readProp_laidOut hpr (hwf pr (List.mem_cons_self _ _)) hq (by omega) hL hoff
      addrCells sizeCells
    simp only [readProps, hprop, ok_bind, ne_eq, not_true_eq_false, if_false, hhead, ih]
    simp [propPairs, cellsAfter, propsLen, Nat.add_assoc]

theorem Node.LaidOut.begin {t : Node} {p : Nat} (h : t.LaidOut buf offStrings p) :
    BytesAt buf p (be32 1) := by
  cases t; exact h.1

/-- The token after a node's properties is its first child's `BEGIN_NODE` or
its own `END_NODE`; either way not `PROP`. -/
theorem token_after_props {cs : List Node} {q : Nat} (hcs : Node.ListLaidOut buf offStrings cs q)
    (hend : BytesAt buf (q + Node.listLen cs) (be32 2)) (hq : q + 4 < usizeLimit) :
    ∃ tok, readBeU32 buf q = .ok tok ∧ tok ≠ ofDtProp := by
  cases cs with
  | nil => exact ⟨_, readBeU32_be32 hend (by omega) hq, by decide⟩
  | cons c cs => exact ⟨_, readBeU32_be32 hcs.1.begin (by omega) hq, by decide⟩

theorem parseHead_laidOut (hL : buf.length < 2 ^ 32) (hoff : offStrings < 2 ^ 32)
    {name : Bytes} {props : List Property} {children : List Node} {p : Nat} (fuel : Nat)
    (hat : (Node.mk name props children).LaidOut buf offStrings p)
    (hwf : (Node.mk name props children).WF) (hp : p % 4 = 0) (hfuel : buf.length - p ≤ fuel)
    (addrCells sizeCells : Nat) :
    parseHead buf offStrings fuel p addrCells sizeCells =
      .ok (⟨name, cellsAfter addressCellsName addrCells props,
        cellsAfter sizeCellsName sizeCells props, propPairs props⟩,
        p + nameLen name + propsLen props) := by
  simp only [Node.LaidOut] at hat
  simp only [Node.WF] at hwf
  obtain ⟨hbegin, hname, hprops, hchildren, hend⟩ := hat
  have hlim : 2 ^ 34 < usizeLimit := by unfold usizeLimit; omega
  have hnameLt := hname.le_length
  have hendLe := hend.le_length_be32
  simp only [List.length_append, List.length_singleton] at hnameLt
  have hpad := le_pad4 (name.length + 1)
  have hmod := pad4_mod (name.length + 1)
  have htok := readBeU32_be32 hbegin (by omega) (by omega)
  rw [be32_token_begin] at htok
  have hbstr := readBstring0_of_bytesAt hname hwf.1
  have halign : alignUp (p + 4 + name.length + 1) 4 = .ok (p + nameLen name) := by
    rw [alignUp_of_lt (by omega)]; unfold nameLen pad4; congr 1; omega
  have hread := readProps_laidOut hL hoff props fuel (p + nameLen name) addrCells sizeCells []
    hprops hwf.2.2.1 (by unfold nameLen; omega)
    (token_after_props hchildren hend (by omega)) (by unfold nameLen; omega)
  unfold parseHead
  simp only [htok, usizeAdd_of_lt (show p + 4 < usizeLimit by omega), hbstr,
    usizeAdd_of_lt (show p + 4 + name.length < usizeLimit by omega),
    usizeAdd_of_lt (show p + 4 + name.length + 1 < usizeLimit by omega), halign, hread,
    fromUtf8_of_valid hwf.2.1, ok_bind, ne_eq, not_true_eq_false, if_false, pure_eq_ok,
    List.nil_append]

/-- Node and child loop together, by induction on the fuel with the tree
generalised: a laid-out node yields exactly its `events` and returns the end
of its encoding; a laid-out sibling list is parsed up to and past the parent's
`END_NODE`. -/
theorem parse_laidOut (hL : buf.length < 2 ^ 32) (hoff : offStrings < 2 ^ 32) : ∀ fuel,
    (∀ (t : Node) (p addrCells sizeCells : Nat), t.LaidOut buf offStrings p → t.WF →
      p % 4 = 0 → buf.length - p < fuel →
      parseNode buf offStrings fuel p addrCells sizeCells =
        (t.events addrCells sizeCells, .ok (p + t.encLen))) ∧
    (∀ (cs : List Node) (q addrCells sizeCells : Nat), Node.ListLaidOut buf offStrings cs q →
      Node.ListWF cs → q % 4 = 0 → BytesAt buf (q + Node.listLen cs) (be32 2) →
      buf.length - q + 1 < fuel →
      parseChildren buf offStrings fuel q addrCells sizeCells =
        (Node.listEvents cs addrCells sizeCells, .ok (q + Node.listLen cs + 4)))
  | 0 => ⟨fun _ _ _ _ _ _ _ h => absurd h (Nat.not_lt_zero _),
      fun _ _ _ _ _ _ _ _ h => absurd h (Nat.not_lt_zero _)⟩
  | fuel + 1 => by
    obtain ⟨ihNode, ihChildren⟩ := parse_laidOut hL hoff fuel
    have hlim : 2 ^ 34 < usizeLimit := by unfold usizeLimit; omega
    constructor
    · rintro ⟨name, props, children⟩ p addrCells sizeCells hat hwf hp hfuel
      have hhead := parseHead_laidOut hL hoff fuel hat hwf hp (by omega) addrCells sizeCells
      simp only [Node.LaidOut] at hat
      simp only [Node.WF] at hwf
      have hbegin := hat.1.le_length_be32
      have := pad4_mod (name.length + 1)
      have := le_pad4 (name.length + 1)
      have := propsLen_mod props
      rw [parseNode_succ, hhead]
      dsimp only
      rw [ihChildren children _ _ _ hat.2.2.2.1 hwf.2.2.2 (by unfold nameLen; omega) hat.2.2.2.2
        (by unfold nameLen; omega)]
      simp [Node.events, Node.encLen, Nat.add_assoc]
    · rintro (_ | ⟨c, cs⟩) q addrCells sizeCells hcs hwf hq hend hfuel
      · simp only [Node.listLen, Nat.add_zero] at hend
        have hle := hend.le_length_be32
        have htok := readBeU32_be32 hend (by omega) (by omega)
        rw [be32_token_end] at htok
        have hne : ofDtEndNode ≠ ofDtBeginNode := by decide
        simp [parseChildren_succ, htok, hne, usizeAdd_of_lt (show q + 4 < usizeLimit by omega),
          Node.listEvents, Node.listLen]
      · obtain ⟨hc, hcs⟩ := hcs
        obtain ⟨hwfc, hwfcs⟩ := hwf
        have hbegin := hc.begin.le_length_be32
        have htok := readBeU32_be32 hc.begin (by omega) (by omega)
        rw [be32_token_begin] at htok
        have hlen := Node.encLen_mod c
        simp only [Node.listLen, ← Nat.add_assoc] at hend
        rw [parseChildren_succ, htok]
        simp only [if_true, ihNode c q addrCells sizeCells hc hwfc hq (by omega),
          ihChildren cs (q + c.encLen) addrCells sizeCells hcs hwfcs (by omega) hend (by omega)]
        simp [Node.listEvents, Node.listLen, Nat.add_assoc]

end Parse

end Lkmodel.Dtb
