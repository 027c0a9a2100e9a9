import Lkmodel.Dtb.RoundTrip

/-!
# What `parse` accepts

`parse_laidOut` reads a laid-out tree. This module proves the converse: every
blob `DeviceTree::parse` accepts holds a well-formed tree laid out where the
parse started, and the callback's calls are that tree's events. Each check the
parser makes is one clause of `Node.LaidOut` or `Node.WF`, and the parser
checks nothing else: padding bytes and name offsets are as free in the one as
in the other.

* the leaf lemmas (`readBeU32_ok`, `readBstring0_ok`, `subslice_ok`, ...) say
  what a read that returned `Ok` found in the blob;
* `readProp_ok`, `readProps_ok` and `parseHead_ok` invert the property record,
  the property loop and the node head;
* `parse_sound` is the induction over the node and child loop;
* `DeviceTree.parse_ok_iff` puts it together with `parse_laidOut`: from a
  4-aligned position, `parse` succeeds exactly on the blobs that hold a
  well-formed laid-out tree there, and then makes exactly its calls;
* `Node.laidOut_unique` — the encoding is unambiguous: two well-formed trees
  laid out at one place of a blob shorter than `2^32` are equal, so
  `DeviceTree.parse_tree_unique` finds behind every successful parse the one
  tree the blob holds there.
-/

namespace Lkmodel.Dtb

/-! ## The reads, inverted

What each read, checked addition and conversion says about the blob when it
returns `Ok`: the form the parser's success takes, one lemma per helper, so
that the parser's proofs never unfold them. -/

theorem bind_eq_ok {α β : Type} {x : DeviceTreeResult α} {f : α → DeviceTreeResult β}
    {b : β} : x >>= f = .ok b ↔ ∃ a, x = .ok a ∧ f a = .ok b := by
  rcases x with e | a <;> simp

theorem usizeAdd_ok {a b c : Nat} (h : usizeAdd a b = .ok c) : c = a + b := by
  unfold usizeAdd at h
  split_ifs at h
  cases h; rfl

/-- Four bytes read big-endian and written back as a DTB `u32` are the same
four bytes. -/
theorem be32_beNat (a b c d : UInt8) : be32 (beNat [a, b, c, d]) = [a, b, c, d] := by
  have ha := a.toNat_lt_size
  have hb := b.toNat_lt_size
  have hc := c.toNat_lt_size
  have hd := d.toNat_lt_size
  simp only [UInt8.size] at ha hb hc hd
  simp only [be32, beNat, List.foldl_cons, List.foldl_nil, List.cons.injEq, and_true]
  refine ⟨?_, ?_, ?_, ?_⟩ <;> apply UInt8.toNat.inj <;> rw [toNat_toUInt8] <;> omega

/-- A word `read_be_u32` returns is stored big-endian where it was read. -/
theorem readBeU32_ok {s : Bytes} {p : Nat} {v : UInt32} (h : readBeU32 s p = .ok v) :
    BytesAt s p (be32 v.toNat) := by
  have hl := readBeU32_ok_le h
  have hlim : p + 4 < usizeLimit := by
    unfold readBeU32 at h; split_ifs at h with h'; exact h'
  obtain ⟨x, hx, hv⟩ := readBeU32_ok_beNat s hlim hl
  obtain ⟨a, b, c, d, hq⟩ := exists_take_four hl
  rw [hx] at h
  cases h
  rw [hv, hq, be32_beNat, ← hq]
  exact bytesAt_take_drop s (by omega) 4

/-- A string `read_bstring0` returns is NUL-free and stored with its NUL
where it was read. -/
theorem readBstring0_ok {s str : Bytes} {p : Nat} (h : readBstring0 s p = .ok str) :
    0 ∉ str ∧ BytesAt s p (str ++ [0]) := by
  unfold readBstring0 at h
  split at h
  · next str' hs =>
    cases h
    obtain ⟨hz, rest, hrest⟩ := untilNul_eq_some_iff.mp hs
    refine ⟨hz, ?_, rest, by rw [hrest]; simp⟩
    by_contra hp
    rw [List.drop_eq_nil_of_le (by omega)] at hrest
    simp at hrest
  · cases h

theorem subslice_ok {s v : Bytes} {a b : Nat} (h : subslice s a b = .ok v) :
    b < s.length ∧ a ≤ b ∧ v = (s.drop a).take (b - a) := by
  unfold subslice at h
  split_ifs at h with h₁ h₂
  cases h
  exact ⟨h₁, h₂, rfl⟩

theorem alignUp_ok {x y : Nat} (h : alignUp x 4 = .ok y) : y = (x + 3) / 4 * 4 := by
  unfold alignUp at h
  obtain ⟨t, ht, h⟩ := bind_eq_ok.mp h
  rw [usizeAdd_ok ht] at h
  cases h; rfl

theorem fromUtf8_ok {bs s : Bytes} (h : fromUtf8 bs = .ok s) : s = bs ∧ utf8Valid bs = true := by
  unfold fromUtf8 at h
  split_ifs at h with hv
  cases h
  exact ⟨rfl, hv⟩


/-! ## The parser, inverted -/

section Accept

variable {buf : Bytes} {offStrings : Nat}

/-- A property record `read_prop` accepts after a `PROP` token at an aligned
position is a laid-out, well-formed property; the loop continues at the end
of its record. -/
theorem readProp_ok {q a s : Nat} {r : (Bytes × Bytes) × Nat × Nat × Nat}
    (htok : BytesAt buf q (be32 3)) (hq : q % 4 = 0)
    (h : readProp buf offStrings q a s = .ok r) :
    ∃ pr : Property, PropAt buf offStrings q pr ∧ pr.WF ∧
      r = ((pr.name, pr.value), cellStep addressCellsName a pr, cellStep sizeCellsName s pr,
        q + pr.recLen) := by
  unfold readProp at h
  obtain ⟨p4, hp4, h⟩ := bind_eq_ok.mp h
  obtain ⟨sz, hsz, h⟩ := bind_eq_ok.mp h
  obtain ⟨p8, hp8, h⟩ := bind_eq_ok.mp h
  obtain ⟨off, hoff, h⟩ := bind_eq_ok.mp h
  obtain ⟨p12, hp12, h⟩ := bind_eq_ok.mp h
  obtain ⟨ve, hve, h⟩ := bind_eq_ok.mp h
  obtain ⟨val, hval, h⟩ := bind_eq_ok.mp h
  obtain ⟨so, hso, h⟩ := bind_eq_ok.mp h
  obtain ⟨raw, hraw, h⟩ := bind_eq_ok.mp h
  obtain ⟨name, hname, hk⟩ := bind_eq_ok.mp h
  obtain rfl := usizeAdd_ok hp4
  obtain rfl := usizeAdd_ok hp8
  obtain rfl := usizeAdd_ok hp12
  obtain rfl := usizeAdd_ok hve
  obtain rfl := usizeAdd_ok hso
  obtain ⟨hlt, -, hv⟩ := subslice_ok hval
  obtain ⟨hz, hrawAt⟩ := readBstring0_ok hraw
  obtain ⟨rfl, hvalid⟩ := fromUtf8_ok hname
  have hlen : val.length = sz.toNat := by
    rw [hv, List.length_take, List.length_drop]; omega
  have hat : PropAt buf offStrings q ⟨name, val⟩ :=
    ⟨htok, hlen ▸ readBeU32_ok hsz, off.toNat, off.toNat_lt_size, readBeU32_ok hoff,
      hv ▸ bytesAt_take_drop buf (by omega) _, hrawAt⟩
  have hend : ∀ cells : Nat × Nat, (alignUp (q + 12 + sz.toNat) 4 >>= fun q' =>
      pure ((name, val), cells.1, cells.2, q')) = .ok r →
      r = ((name, val), cells.1, cells.2, q + Property.recLen ⟨name, val⟩) := by
    intro cells h
    obtain ⟨q', hq', h⟩ := bind_eq_ok.mp h
    simp only [pure_eq_ok, Except.ok.injEq] at h
    subst h
    have hpad : (q + 12 + sz.toNat + 3) / 4 * 4 = q + Property.recLen ⟨name, val⟩ := by
      rw [Property.recLen, hlen, pad4]; omega
    rw [alignUp_ok hq', hpad]
  have hcell : ∀ l, readBeU32 val 0 = .ok l →
      4 ≤ val.length ∧ l.toNat = beNat (val.take 4) := by
    intro l hl
    obtain ⟨x, hx, hxv⟩ :=
      readBeU32_ok_beNat val (by unfold usizeLimit; omega) (readBeU32_ok_le hl)
    rw [hl] at hx
    cases hx
    exact ⟨readBeU32_ok_le hl, hxv⟩
  refine ⟨_, hat, ?_⟩
  dsimp only at hk
  split_ifs at hk with h1 h2
  · obtain ⟨l, hl, h⟩ := bind_eq_ok.mp hk
    obtain ⟨h4, hlv⟩ := hcell l hl
    rw [pure_bind] at h
    refine ⟨⟨hz, hvalid, fun _ => h4⟩, (hend _ h).trans ?_⟩
    simp only [cellStep, if_pos h1, if_neg (h1 ▸ addressCellsName_ne_sizeCellsName), hlv]
  · obtain ⟨l, hl, h⟩ := bind_eq_ok.mp hk
    obtain ⟨h4, hlv⟩ := hcell l hl
    rw [pure_bind] at h
    refine ⟨⟨hz, hvalid, fun _ => h4⟩, (hend _ h).trans ?_⟩
    simp only [cellStep, if_neg h1, if_pos h2, hlv]
  · rw [pure_bind] at hk
    refine ⟨⟨hz, hvalid, fun hn => (hn.elim h1 h2).elim⟩, (hend _ hk).trans ?_⟩
    simp only [cellStep, if_neg h1, if_neg h2]

/-- The property loop accepts a run of laid-out, well-formed property
records, and returns their pairs, the cell counts they leave and the end of
the last record. -/
theorem readProps_ok : ∀ (fuel q a s : Nat) (acc : List (Bytes × Bytes))
    {r : List (Bytes × Bytes) × Nat × Nat × Nat}, q % 4 = 0 →
    readProps buf offStrings fuel q a s acc = .ok r →
    ∃ props : List Property, PropsAt buf offStrings props q ∧ (∀ pr ∈ props, pr.WF) ∧
      r = (acc ++ propPairs props, cellsAfter addressCellsName a props,
        cellsAfter sizeCellsName s props, q + propsLen props)
  | 0, _, _, _, _, _, _, h => by cases h
  | fuel + 1, q, a, s, acc, r, hq, h => by
    rw [readProps] at h
    obtain ⟨tok, htok, h⟩ := bind_eq_ok.mp h
    dsimp only at h
    split_ifs at h with htp
    · simp only [pure_eq_ok, Except.ok.injEq] at h
      refine ⟨[], trivial, fun _ h => absurd h (List.not_mem_nil _), ?_⟩
      simp [← h, propPairs, cellsAfter, propsLen]
    rw [pure_bind] at h
    obtain ⟨⟨pp, a₁, s₁, q₁⟩, hp, h⟩ := bind_eq_ok.mp h
    have htok' := readBeU32_ok htok
    rw [not_not.mp htp] at htok'
    obtain ⟨pr, hat, hwf, he⟩ := readProp_ok htok' hq hp
    simp only [Prod.mk.injEq] at he
    obtain ⟨rfl, rfl, rfl, rfl⟩ := he
    have hq₁ : (q + pr.recLen) % 4 = 0 := by
      have := pad4_mod pr.value.length; simp only [Property.recLen]; omega
    obtain ⟨props, hats, hwfs, rfl⟩ := readProps_ok fuel _ _ _ _ hq₁ h
    refine ⟨pr :: props, ⟨hat, hats⟩, ?_, ?_⟩
    · simp only [List.mem_cons, forall_eq_or_imp]; exact ⟨hwf, hwfs⟩
    · simp [propPairs, cellsAfter, propsLen, Nat.add_assoc]

/-- What `parse` accepted of a node before its callback: the `BEGIN_NODE`
token, a NUL-free UTF-8 name, and its laid-out property records. -/
theorem parseHead_ok {fuel p a s q : Nat} {ev : NodeEvent} (hp : p % 4 = 0)
    (h : parseHead buf offStrings fuel p a s = .ok (ev, q)) :
    ∃ (name : Bytes) (props : List Property), BytesAt buf p (be32 1) ∧
      BytesAt buf (p + 4) (name ++ [0]) ∧ PropsAt buf offStrings props (p + nameLen name) ∧
      0 ∉ name ∧ utf8Valid name = true ∧ (∀ pr ∈ props, pr.WF) ∧
      ev = ⟨name, cellsAfter addressCellsName a props, cellsAfter sizeCellsName s props,
        propPairs props⟩ ∧ q = p + nameLen name + propsLen props := by
  unfold parseHead at h
  obtain ⟨tok, htok, h⟩ := bind_eq_ok.mp h
  dsimp only at h
  split_ifs at h with hb
  · simp only [throw_eq_error, error_bind, reduceCtorEq] at h
  rw [pure_bind] at h
  obtain ⟨p4, hp4, h⟩ := bind_eq_ok.mp h
  obtain ⟨raw, hraw, h⟩ := bind_eq_ok.mp h
  obtain ⟨l₁, hl₁, h⟩ := bind_eq_ok.mp h
  obtain ⟨l₂, hl₂, h⟩ := bind_eq_ok.mp h
  obtain ⟨q₁, hq₁, h⟩ := bind_eq_ok.mp h
  obtain ⟨⟨pairs, a₁, s₁, q₂⟩, hps, h⟩ := bind_eq_ok.mp h
  obtain ⟨name, hname, hk⟩ := bind_eq_ok.mp h
  obtain rfl := usizeAdd_ok hp4
  obtain rfl := usizeAdd_ok hl₁
  obtain rfl := usizeAdd_ok hl₂
  obtain ⟨hz, hrawAt⟩ := readBstring0_ok hraw
  obtain ⟨rfl, hvalid⟩ := fromUtf8_ok hname
  have hq₁' : q₁ = p + nameLen name := by
    rw [alignUp_ok hq₁, nameLen, pad4]; omega
  subst hq₁'
  have hal : (p + nameLen name) % 4 = 0 := by
    have := pad4_mod (name.length + 1); unfold nameLen; omega
  obtain ⟨props, hats, hwfs, he⟩ := readProps_ok fuel _ a s [] hal hps
  simp only [Prod.mk.injEq, List.nil_append] at he
  obtain ⟨rfl, rfl, rfl, rfl⟩ := he
  simp only [pure_eq_ok, Except.ok.injEq, Prod.mk.injEq] at hk
  obtain ⟨rfl, rfl⟩ := hk
  have hbegin := readBeU32_ok htok
  rw [not_not.mp hb] at hbegin
  exact ⟨name, props, hbegin, hrawAt, hats, hz, hvalid, hwfs, rfl, rfl⟩

/-- Node and child loop together, by induction on the fuel: a node the parser
accepts is a well-formed tree laid out where it started, whose events are the
callback's calls and whose encoding ends where the parser returns; a child
loop accepts a laid-out list of siblings followed by `END_NODE`. -/
theorem parse_sound : ∀ fuel,
    (∀ (p addrCells sizeCells : Nat) {evs : List NodeEvent} {q : Nat}, p % 4 = 0 →
      parseNode buf offStrings fuel p addrCells sizeCells = (evs, .ok q) →
      ∃ t : Node, t.LaidOut buf offStrings p ∧ t.WF ∧ evs = t.events addrCells sizeCells ∧
        q = p + t.encLen) ∧
    (∀ (p addrCells sizeCells : Nat) {evs : List NodeEvent} {q : Nat}, p % 4 = 0 →
      parseChildren buf offStrings fuel p addrCells sizeCells = (evs, .ok q) →
      ∃ cs : List Node, Node.ListLaidOut buf offStrings cs p ∧ Node.ListWF cs ∧
        BytesAt buf (p + Node.listLen cs) (be32 2) ∧
        evs = Node.listEvents cs addrCells sizeCells ∧ q = p + Node.listLen cs + 4)
  | 0 => by constructor <;> intro _ _ _ _ _ _ h <;> cases h
  | fuel + 1 => by
    obtain ⟨ihNode, ihChildren⟩ := parse_sound fuel
    constructor
    · intro p a s evs q hp h
      rw [parseNode_succ] at h
      split at h
      · cases h
      · next ev q₁ hh =>
        obtain ⟨name, props, hbegin, hname, hprops, hz, hvalid, hwfs, rfl, rfl⟩ :=
          parseHead_ok hp hh
        simp only [Prod.mk.injEq] at h
        obtain ⟨rfl, hc⟩ := h
        have hal : (p + nameLen name + propsLen props) % 4 = 0 := by
          have := pad4_mod (name.length + 1)
          have := propsLen_mod props
          unfold nameLen; omega
        obtain ⟨cs, hcs, hwfc, hend, hevs, rfl⟩ := ihChildren _ _ _ hal (Prod.ext rfl hc)
        refine ⟨.mk name props cs, ?_, ?_, ?_, ?_⟩
        · simp only [Node.LaidOut]; exact ⟨hbegin, hname, hprops, hcs, hend⟩
        · simp only [Node.WF]; exact ⟨hz, hvalid, hwfs, hwfc⟩
        · simp only [Node.events]; exact congrArg _ hevs
        · simp only [Node.encLen]; omega
    · intro p a s evs q hp h
      rw [parseChildren_succ] at h
      split at h
      · cases h
      · next tok htok =>
        split_ifs at h with hb he
        · split at h
          · next evs₁ p₁ hn =>
            obtain ⟨c, hc, hwfc, rfl, rfl⟩ := ihNode _ _ _ hp hn
            simp only [Prod.mk.injEq] at h
            obtain ⟨rfl, hr⟩ := h
            obtain ⟨cs, hcs, hwfcs, hend, hevs, rfl⟩ :=
              ihChildren _ _ _ (by have := (Node.encLen_mod c).1; omega) (Prod.ext rfl hr)
            refine ⟨c :: cs, ?_, ?_, ?_,
              by simp only [Node.listEvents]; exact congrArg _ hevs, ?_⟩
            · simp only [Node.ListLaidOut]; exact ⟨hc, hcs⟩
            · simp only [Node.ListWF]; exact ⟨hwfc, hwfcs⟩
            · simp only [Node.listLen, ← Nat.add_assoc]; exact hend
            · simp only [Node.listLen]; omega
          · cases h
        · cases h
        · simp only [Prod.mk.injEq] at h
          obtain ⟨rfl, hq⟩ := h
          have hendAt := readBeU32_ok htok
          rw [not_not.mp he] at hendAt
          refine ⟨[], trivial, trivial, by simpa [Node.listLen] using hendAt, rfl, ?_⟩
          simp [usizeAdd_ok hq, Node.listLen]

end Accept

/-- **`parse` accepts exactly the laid-out trees.** `DeviceTree::parse` from a
4-aligned position returns `Ok(q)` after calling its callback with `evs`
exactly when the blob holds there a well-formed tree — names NUL-free UTF-8,
each `#address-cells` and `#size-cells` value at least four bytes — whose
encoding ends at `q` and whose preorder calls, with the cell counts its own
properties leave, are `evs`. -/
theorem DeviceTree.parse_ok_iff (dt : DeviceTree) (mem : Nat → UInt8) {pos : Nat}
    (hpos : pos % 4 = 0) (addrCells sizeCells : Nat) (evs : List NodeEvent) (q : Nat) :
    dt.parse mem pos addrCells sizeCells = (evs, .ok q) ↔
      ∃ t : Node, t.WF ∧ t.LaidOut (dt.buf mem) dt.offStrings pos ∧
        evs = t.events addrCells sizeCells ∧ q = pos + t.encLen := by
  constructor
  · intro h
    obtain ⟨t, hat, hwf, hevs, hq⟩ := (parse_sound _).1 pos addrCells sizeCells hpos h
    exact ⟨t, hwf, hat, hevs, hq⟩
  · rintro ⟨t, hwf, hat, rfl, rfl⟩
    exact (Lkmodel.Dtb.parse_laidOut (by simpa using dt.totalsize_lt) dt.offStrings_lt _).1
      t pos _ _ hat hwf hpos (by simp; omega)

theorem sample_parse_ok_iff :
    0 % 4 = 0 ∧ (sampleDt.parse sampleMem 0 0 0 = (sampleTree.events 0 0, .ok 40) ↔
      ∃ t : Node, t.WF ∧ t.LaidOut (sampleDt.buf sampleMem) sampleDt.offStrings 0 ∧
        sampleTree.events 0 0 = t.events 0 0 ∧ 40 = 0 + t.encLen) :=
  ⟨rfl, DeviceTree.parse_ok_iff sampleDt sampleMem rfl 0 0 _ _⟩

/-! ## One reading

A blob holds at most one well-formed tree at a place: names end at their
first NUL, a length word fixes a value, a name offset fixes a name, and the
property list and the sibling list end exactly where their tokens stop. -/

/-- Two byte strings of one length that stand at one place are equal. -/
theorem BytesAt.eq_of_length {s l₁ l₂ : Bytes} {p : Nat} (h₁ : BytesAt s p l₁)
    (h₂ : BytesAt s p l₂) (hl : l₁.length = l₂.length) : l₁ = l₂ :=
  (List.prefix_of_prefix_length_le h₁.2 h₂.2 hl.le).eq_of_length hl

/-- Two NUL-free strings that stand at one place, each with its NUL, are
equal: the first NUL ends both. -/
theorem BytesAt.eq_of_nul {s a b : Bytes} {p : Nat} (ha : BytesAt s p (a ++ [0]))
    (hb : BytesAt s p (b ++ [0])) (ha0 : 0 ∉ a) (hb0 : 0 ∉ b) : a = b := by
  obtain ⟨-, ta, hta⟩ := ha
  obtain ⟨-, tb, htb⟩ := hb
  have e₁ : untilNul (s.drop p) = some a :=
    untilNul_eq_some_iff.mpr ⟨ha0, ta, by rw [← hta]; simp⟩
  have e₂ : untilNul (s.drop p) = some b :=
    untilNul_eq_some_iff.mpr ⟨hb0, tb, by rw [← htb]; simp⟩
  exact Option.some.inj (e₁.symm.trans e₂)

/-- Two `u32`s stored at one place of a blob shorter than `2^32` are equal. -/
theorem BytesAt.be32_inj {s : Bytes} {q m n : Nat} (hs : s.length < 2 ^ 32)
    (hm : BytesAt s q (be32 m)) (hn : BytesAt s q (be32 n)) (hm' : m < 2 ^ 32)
    (hn' : n < 2 ^ 32) : m = n := by
  have hq : q + 4 < usizeLimit := by have := hm.le_length_be32; unfold usizeLimit; omega
  have h := (readBeU32_be32 hm hm' hq).symm.trans (readBeU32_be32 hn hn' hq)
  have := congrArg UInt32.toNat (Except.ok.inj h)
  rwa [UInt32.toNat_ofNat_of_lt hm', UInt32.toNat_ofNat_of_lt hn'] at this

section Unique

variable {buf : Bytes} {offStrings : Nat} (hs : buf.length < 2 ^ 32)
include hs

/-- One property record per place: its length word fixes the value, its name
offset the name. -/
theorem PropAt.unique {q : Nat} {pr₁ pr₂ : Property} (h₁ : PropAt buf offStrings q pr₁)
    (h₂ : PropAt buf offStrings q pr₂) (hn₁ : 0 ∉ pr₁.name) (hn₂ : 0 ∉ pr₂.name) :
    pr₁ = pr₂ := by
  obtain ⟨-, hl₁, o₁, ho₁, hof₁, hv₁, hname₁⟩ := h₁
  obtain ⟨-, hl₂, o₂, ho₂, hof₂, hv₂, hname₂⟩ := h₂
  have hlen := hl₁.be32_inj hs hl₂ (by have := hv₁.le_length; omega)
    (by have := hv₂.le_length; omega)
  obtain rfl := hof₁.be32_inj hs hof₂ ho₁ ho₂
  cases pr₁
  cases pr₂
  simp only [Property.mk.injEq]
  exact ⟨hname₁.eq_of_nul hname₂ hn₁ hn₂, hv₁.eq_of_length hv₂ hlen⟩

/-- A `PROP` token never stands where a `BEGIN_NODE` or `END_NODE` does. -/
theorem not_prop_of_token {q n : Nat} (hn : n = 1 ∨ n = 2) (h : BytesAt buf q (be32 n)) :
    ¬BytesAt buf q (be32 3) := fun h₃ => by
  have := h.be32_inj hs h₃ (by omega) (by decide)
  omega

/-- One property list per place, given that no `PROP` token follows either:
the records are read one by one, and the list ends where the tokens stop
being `PROP`. -/
theorem propsAt_unique : ∀ {ps₁ ps₂ : List Property} {q : Nat},
    PropsAt buf offStrings ps₁ q → PropsAt buf offStrings ps₂ q →
    (∀ pr ∈ ps₁, pr.WF) → (∀ pr ∈ ps₂, pr.WF) →
    ¬BytesAt buf (q + propsLen ps₁) (be32 3) → ¬BytesAt buf (q + propsLen ps₂) (be32 3) →
    ps₁ = ps₂
  | [], [], _, _, _, _, _, _, _ => rfl
  | [], pr :: _, _, _, h₂, _, _, hend₁, _ => (hend₁ h₂.1.1).elim
  | pr :: _, [], _, h₁, _, _, _, _, hend₂ => (hend₂ h₁.1.1).elim
  | pr₁ :: r₁, pr₂ :: r₂, q, h₁, h₂, hw₁, hw₂, hend₁, hend₂ => by
    have hpr := h₁.1.unique hs h₂.1 (hw₁ pr₁ (List.mem_cons_self _ _)).1
      (hw₂ pr₂ (List.mem_cons_self _ _)).1
    subst hpr
    simp only [propsLen, ← Nat.add_assoc] at hend₁ hend₂
    rw [propsAt_unique h₁.2 h₂.2 (fun pr h => hw₁ pr (List.mem_cons_of_mem _ h))
      (fun pr h => hw₂ pr (List.mem_cons_of_mem _ h)) hend₁ hend₂]

/-- The children of a node start with `BEGIN_NODE`, or there is none and its
`END_NODE` stands there: either way, no `PROP`. -/
theorem Node.ListLaidOut.not_prop : ∀ {cs : List Node} {p : Nat},
    Node.ListLaidOut buf offStrings cs p → BytesAt buf (p + Node.listLen cs) (be32 2) →
    ¬BytesAt buf p (be32 3)
  | [], p, _, hend => not_prop_of_token hs (.inr rfl) (by simpa [Node.listLen] using hend)
  | .mk _ _ _ :: _, _, h, _ => not_prop_of_token hs (.inl rfl) h.1.1

mutual

/-- **One tree per place.** Two well-formed trees laid out at one place of a
blob shorter than `2^32` are equal. -/
theorem Node.laidOut_unique : ∀ {t₁ t₂ : Node} {p : Nat}, t₁.WF → t₂.WF →
    t₁.LaidOut buf offStrings p → t₂.LaidOut buf offStrings p → t₁ = t₂
  | .mk n₁ ps₁ cs₁, .mk n₂ ps₂ cs₂, p, hw₁, hw₂, h₁, h₂ => by
    obtain ⟨-, hn₁, hp₁, hc₁, he₁⟩ := h₁
    obtain ⟨-, hn₂, hp₂, hc₂, he₂⟩ := h₂
    obtain ⟨hz₁, -, hpw₁, hcw₁⟩ := hw₁
    obtain ⟨hz₂, -, hpw₂, hcw₂⟩ := hw₂
    obtain rfl := hn₁.eq_of_nul hn₂ hz₁ hz₂
    obtain rfl :=
      propsAt_unique hs hp₁ hp₂ hpw₁ hpw₂ (hc₁.not_prop hs he₁) (hc₂.not_prop hs he₂)
    rw [Node.listLaidOut_unique hcw₁ hcw₂ hc₁ hc₂ he₁ he₂]

/-- One sibling list per place, each followed by its parent's `END_NODE`. -/
theorem Node.listLaidOut_unique : ∀ {cs₁ cs₂ : List Node} {p : Nat},
    Node.ListWF cs₁ → Node.ListWF cs₂ →
    Node.ListLaidOut buf offStrings cs₁ p → Node.ListLaidOut buf offStrings cs₂ p →
    BytesAt buf (p + Node.listLen cs₁) (be32 2) →
    BytesAt buf (p + Node.listLen cs₂) (be32 2) → cs₁ = cs₂
  | [], [], _, _, _, _, _, _, _ => rfl
  | [], .mk _ _ _ :: _, _, _, _, _, h₂, he₁, _ => by
    have := (show BytesAt buf _ (be32 2) by simpa [Node.listLen] using he₁).be32_inj hs h₂.1.1
      (by decide) (by decide)
    omega
  | .mk _ _ _ :: _, [], _, _, _, h₁, _, _, he₂ => by
    have := (show BytesAt buf _ (be32 2) by simpa [Node.listLen] using he₂).be32_inj hs h₁.1.1
      (by decide) (by decide)
    omega
  | c₁ :: r₁, c₂ :: r₂, p, hw₁, hw₂, h₁, h₂, he₁, he₂ => by
    obtain rfl := Node.laidOut_unique hw₁.1 hw₂.1 h₁.1 h₂.1
    simp only [Node.listLen, ← Nat.add_assoc] at he₁ he₂
    rw [Node.listLaidOut_unique hw₁.2 hw₂.2 h₁.2 h₂.2 he₁ he₂]

end

end Unique

/-- **The blob has one reading.** Whenever `DeviceTree::parse` returns `Ok`
from an aligned start, the well-formed tree whose preorder the callback saw
and whose encoding ends where the parser stopped is the only well-formed tree
laid out there: the structure-block encoding is unambiguous, so a successful
parse determines the tree, not only its callbacks. -/
theorem DeviceTree.parse_tree_unique (dt : DeviceTree) (mem : Nat → UInt8) {pos : Nat}
    (hpos : pos % 4 = 0) {a s q : Nat} {evs : List NodeEvent}
    (h : dt.parse mem pos a s = (evs, .ok q)) :
    ∃ t : Node, (t.WF ∧ t.LaidOut (dt.buf mem) dt.offStrings pos ∧ evs = t.events a s ∧
      q = pos + t.encLen) ∧
      ∀ t' : Node, t'.WF → t'.LaidOut (dt.buf mem) dt.offStrings pos → t' = t := by
  obtain ⟨t, hat, hwf, hevs, hq⟩ := (parse_sound _).1 pos a s hpos h
  have hs : (dt.buf mem).length < 2 ^ 32 := by simpa using dt.totalsize_lt
  exact ⟨t, ⟨hwf, hat, hevs, hq⟩,
    fun t' hwf' hat' => Node.laidOut_unique hs hwf' hwf hat' hat⟩

theorem sample_parse_tree_unique :
    0 % 4 = 0 ∧ sampleDt.parse sampleMem 0 0 0 = (sampleTree.events 0 0, .ok 40) ∧
      ∃ t : Node, (t.WF ∧ t.LaidOut (sampleDt.buf sampleMem) sampleDt.offStrings 0 ∧
        sampleTree.events 0 0 = t.events 0 0 ∧ 40 = 0 + t.encLen) ∧
        ∀ t' : Node, t'.WF → t'.LaidOut (sampleDt.buf sampleMem) sampleDt.offStrings 0 →
          t' = t := by
  have h : sampleDt.parse sampleMem 0 0 0 = (sampleTree.events 0 0, .ok 40) :=
    DeviceTree.parse_laidOut sampleDt sampleMem sampleTree_wf sampleTree_laidOut rfl 0 0
  exact ⟨rfl, h, DeviceTree.parse_tree_unique sampleDt sampleMem rfl h⟩

end Lkmodel.Dtb
