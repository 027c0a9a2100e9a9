import Lkmodel.Dtb.Parse

/-!
# `parse` terminates and never panics

`DeviceTree::parse` reads a blob that nobody has checked: any byte may sit
anywhere. This module shows that on every blob of fewer than `2^32` bytes the
parser comes back, with `Ok` or with one of its own errors, and never hits
one of the panics the Rust code can raise (an overflowing `usize` addition,
an out-of-order slice range); the fuel of the model never runs out.

* `readProp_returns`, `readProps_returns`, `parseHead_returns` and
  `parse_returns` carry the bounds through each piece of the parser;
* `parse_terminates_without_panic` is the result for `DeviceTree::parse`.
-/

namespace Lkmodel.Dtb

section Bounds

variable {buf : Bytes} {offStrings : Nat}

theorem readProp_returns (hL : buf.length < 2 ^ 32) (hoff : offStrings < 2 ^ 32) {pos : Nat}
    (hpos : pos + 4 ≤ buf.length) (addrCells sizeCells : Nat) :
    Returns (readProp buf offStrings pos addrCells sizeCells)
      (fun r => pos + 12 ≤ r.2.2.2 ∧ r.2.2.2 ≤ buf.length + 3 ∧ r.2.2.2 % 4 = 0) := by
  have hlim : 2 ^ 34 < usizeLimit := by unfold usizeLimit; omega
  unfold readProp
  have hsize : ∀ x : UInt32, x.toNat < 2 ^ 32 := fun x => x.toNat_lt_size
  refine (returns_usizeAdd (by omega)).bind fun p4 h4 => ?_
  subst h4
  refine (returns_readBeU32 buf (by omega)).bind fun sz _ => ?_
  refine (returns_usizeAdd (by omega)).bind fun p8 h8 => ?_
  subst h8
  refine (returns_readBeU32 buf (by omega)).bind fun off _ => ?_
  refine (returns_usizeAdd (by omega)).bind fun p12 h12 => ?_
  subst h12
  have := hsize sz
  refine (returns_usizeAdd (by omega)).bind fun valEnd hve => ?_
  subst hve
  refine (returns_subslice buf (by omega)).bind fun val hval => ?_
  have := hsize off
  refine (returns_usizeAdd (by omega)).bind fun so _ => ?_
  refine (returns_readBstring0 buf so).bind fun raw _ => ?_
  refine (returns_fromUtf8 raw).bind fun name _ => ?_
  have jp : ∀ a b : Nat, Returns (do
      let q ← alignUp (pos + 12 + sz.toNat) 4
      pure ((name, val), a, b, q))
      (fun r => pos + 12 ≤ r.2.2.2 ∧ r.2.2.2 ≤ buf.length + 3 ∧ r.2.2.2 % 4 = 0) :=
    fun _ _ => (returns_alignUp (by omega)).bind fun q hq => by simp only [hq, pure_eq_ok, returns_ok]; omega
  simp only [pure_bind]
  split_ifs
  · exact (returns_readBeU32 val (by omega)).bind fun _ _ => jp _ _
  · exact (returns_readBeU32 val (by omega)).bind fun _ _ => jp _ _
  · exact jp _ _

theorem readProps_returns (hL : buf.length < 2 ^ 32) (hoff : offStrings < 2 ^ 32) :
    ∀ fuel pos addrCells sizeCells props, pos ≤ buf.length + 3 → pos % 4 = 0 →
      buf.length - pos < fuel →
      Returns (readProps buf offStrings fuel pos addrCells sizeCells props)
        (fun r => pos ≤ r.2.2.2 ∧ r.2.2.2 + 4 ≤ buf.length ∧ r.2.2.2 % 4 = 0)
  | 0, _, _, _, _, _, _, hfuel => absurd hfuel (Nat.not_lt_zero _)
  | fuel + 1, pos, addrCells, sizeCells, props, hpos, halign, hfuel => by
    unfold readProps
    refine (returns_readBeU32 buf (by unfold usizeLimit; omega)).bind fun tok hl => ?_
    split_ifs
    · simp only [pure_eq_ok, returns_ok]; omega
    · refine (readProp_returns hL hoff hl _ _).bind fun ⟨prop, a, s, q⟩ hq => ?_
      dsimp only at hq
      exact (readProps_returns hL hoff fuel q a s _ (by omega) hq.2.2 (by omega)).mono
        fun _ h => ⟨by omega, h.2⟩

theorem parseHead_returns (hL : buf.length < 2 ^ 32) (hoff : offStrings < 2 ^ 32)
    (fuel : Nat) {pos : Nat} (hpos : pos < 2 ^ 33) (hfuel : buf.length - pos ≤ fuel)
    (addrCells sizeCells : Nat) :
    Returns (parseHead buf offStrings fuel pos addrCells sizeCells)
      (fun r => pos + 5 ≤ r.2 ∧ r.2 + 4 ≤ buf.length ∧ r.2 % 4 = 0) := by
  have hlim : 2 ^ 34 < usizeLimit := by unfold usizeLimit; omega
  unfold parseHead
  refine (returns_readBeU32 buf (by omega)).bind fun tok hl => ?_
  split_ifs
  · simp
  refine (returns_usizeAdd (by omega)).bind fun p4 h4 => ?_
  subst h4
  refine (returns_readBstring0 buf _).bind fun raw hraw => ?_
  refine (returns_usizeAdd (by omega)).bind fun p5 h5 => ?_
  subst h5
  refine (returns_usizeAdd (by omega)).bind fun p6 h6 => ?_
  subst h6
  refine (returns_alignUp (by omega)).bind fun q0 hq0 => ?_
  subst hq0
  refine (readProps_returns hL hoff fuel _ _ _ _ (by omega) (by omega) (by omega)).bind
    fun ⟨props, a, s, q⟩ hq => ?_
  dsimp only at hq
  exact (returns_fromUtf8 raw).bind fun _ _ => by simp only [pure_eq_ok, returns_ok]; omega

/-- Node and child loop together, by induction on the fuel: with more fuel
than bytes left, each returns an end past its start, inside the blob, on a
4-byte boundary. -/
theorem parse_returns (hL : buf.length < 2 ^ 32) (hoff : offStrings < 2 ^ 32) : ∀ fuel,
    (∀ pos addrCells sizeCells, pos < 2 ^ 33 → buf.length - pos < fuel →
      Returns (parseNode buf offStrings fuel pos addrCells sizeCells).2
        (fun q => pos < q ∧ q ≤ buf.length ∧ q % 4 = 0)) ∧
    (∀ pos addrCells sizeCells, pos < 2 ^ 33 → pos % 4 = 0 → buf.length - pos + 1 < fuel →
      Returns (parseChildren buf offStrings fuel pos addrCells sizeCells).2
        (fun q => pos < q ∧ q ≤ buf.length ∧ q % 4 = 0))
  | 0 => ⟨fun _ _ _ _ h => absurd h (Nat.not_lt_zero _),
      fun _ _ _ _ _ h => absurd h (Nat.not_lt_zero _)⟩
  | fuel + 1 => by
    obtain ⟨ihNode, ihChildren⟩ := parse_returns hL hoff fuel
    constructor
    · intro pos addrCells sizeCells hpos hfuel
      have hh := parseHead_returns hL hoff fuel hpos (by omega) addrCells sizeCells
      rw [parseNode_succ]
      rcases h : parseHead buf offStrings fuel pos addrCells sizeCells with f | ⟨ev, q⟩
      · obtain ⟨e, rfl⟩ := hh.of_error h
        exact returns_err
      · have hq := hh.of_ok h
        dsimp only at hq ⊢
        exact (ihChildren q _ _ (by omega) hq.2.2 (by omega)).mono fun _ h => ⟨by omega, h.2⟩
    · intro pos addrCells sizeCells hpos halign hfuel
      have hr := returns_readBeU32 buf (p := pos) (by unfold usizeLimit; omega)
      rw [parseChildren_succ]
      rcases h : readBeU32 buf pos with f | tok
      · obtain ⟨e, rfl⟩ := hr.of_error h
        exact returns_err
      have hl := hr.of_ok h
      dsimp only
      split_ifs
      · have hn := ihNode pos addrCells sizeCells hpos (by omega)
        rcases hc : parseNode buf offStrings fuel pos addrCells sizeCells with ⟨evs, f | p⟩
        · rw [hc] at hn
          obtain ⟨e, rfl⟩ := hn.of_error rfl
          exact returns_err
        · rw [hc] at hn
          obtain ⟨hp, hpl, hpa⟩ := hn
          exact (ihChildren p _ _ (by omega) hpa (by omega)).mono fun _ h => ⟨by omega, h.2⟩
      · exact returns_err
      · simp only [usizeAdd_of_lt (show pos + 4 < usizeLimit by unfold usizeLimit; omega),
          returns_ok]
        omega

end Bounds

/-- **`DeviceTree::parse` terminates and never panics.** For every blob (its
header fields are `u32`s, so below `2^32`), every start below `2^32` and every
pair of cell counts, the fuel `totalsize + 1` suffices: every recursive call
starts past its caller's start, so `totalsize - pos` falls. No `usize`
addition overflows and no slice range is out of order, which are the only
panics the model has: the byte reads of `read_be_u32` and `read_bstring0`
are in range by construction, and `subslice` slices only below `len`. An
`Ok(p)` ends past the start, inside the blob, on a 4-byte boundary. -/
theorem parse_terminates_without_panic (dt : DeviceTree) (mem : Nat → UInt8) {pos : Nat}
    (hpos : pos < 2 ^ 32) (addrCells sizeCells : Nat) :
    (dt.parse mem pos addrCells sizeCells).2 ≠ .error .outOfFuel ∧
      (dt.parse mem pos addrCells sizeCells).2 ≠ .error .panic ∧
      ∀ p, (dt.parse mem pos addrCells sizeCells).2 = .ok p →
        pos < p ∧ p ≤ dt.totalsize ∧ p % 4 = 0 := by
  have hL : (dt.buf mem).length < 2 ^ 32 := by simpa using dt.totalsize_lt
  have h := (parse_returns hL dt.offStrings_lt (dt.totalsize + 1)).1 pos addrCells sizeCells
    (by omega) (by simp; omega)
  refine ⟨h.ne_outOfFuel, h.ne_panic, fun p hp => ?_⟩
  simpa using h.of_ok hp


/-! ## A sample blob

A root that declares `#address-cells = 2` and has one child `c`, with the
strings block right after the structure block. -/

/-- The sample blob: the structure block at 0, the strings block at 40. -/
def sampleBlob : Bytes :=
  [0, 0, 0, 1, 0, 0, 0, 0, 0, 0, 0, 3, 0, 0, 0, 4, 0, 0, 0, 0, 0, 0, 0, 2,
    0, 0, 0, 1, 0x63, 0, 0, 0, 0, 0, 0, 2, 0, 0, 0, 2] ++ addressCellsName ++ [0]

/-- Kernel memory with the sample blob at address 0. -/
def sampleMem (i : Nat) : UInt8 := sampleBlob.getD i 0

/-- The sample blob as `DeviceTree::init` would describe it. -/
def sampleDt : DeviceTree := ⟨0, 55, 0, 40, by decide, by decide, by decide⟩

/-- The theorem at the sample blob, parsed from its structure block, where it
returns `Ok(40)`. -/
theorem parse_terminates_on_sample :
    sampleDt.offStruct < 2 ^ 32 ∧
      (sampleDt.parse sampleMem sampleDt.offStruct 0 0).2 ≠ .error .outOfFuel ∧
      (sampleDt.parse sampleMem sampleDt.offStruct 0 0).2 ≠ .error .panic ∧
      ∀ p, (sampleDt.parse sampleMem sampleDt.offStruct 0 0).2 = .ok p →
        sampleDt.offStruct < p ∧ p ≤ sampleDt.totalsize ∧ p % 4 = 0 :=
  ⟨by decide, parse_terminates_without_panic sampleDt sampleMem (by decide) 0 0⟩

end Lkmodel.Dtb
