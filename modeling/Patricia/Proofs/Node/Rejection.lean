import Patricia.Proofs.Node.Form
import Patricia.Proofs.Rlp.Undecodable

/-
  Why an entry is turned away.

  Several things can be wrong with an entry at once. `Rejected` says which of them is told, and of
  which kind it is: what encodes no item at all comes first, whatever its parts are; then a byte
  string, and a number of items that no node has; then the checks of a pair in their order, or the
  slots of a branch from the lowest on.

  `PairFails` and `SlotFails` say of each check by itself when it fails, and `FirstFailure` takes
  the first. Decoding fails with a fault exactly if the fault is told in this sense
  (`decode_error_iff_rejected`), so it succeeds exactly if nothing is wrong.
-/

namespace Patricia

/-- Of numbered checks, the first that fails is of this kind and has this fault. -/
def FirstFailure (fails : Nat → Kind → Fault → Prop) (kind : Kind) (f : Fault) : Prop :=
  ∃ n, fails n kind f ∧ ∀ m < n, ∀ kind' f', ¬ fails m kind' f'

/-- The checks of a pair of items, each by itself, numbered in their order. The upper half of the
first byte of a path holds the flags, of which the upper one is the terminator flag. -/
inductive PairFails : Rlp.Item → Rlp.Item → Nat → Kind → Fault → Prop
  | pathList (items : List Rlp.Item) (second : Rlp.Item) :
    PairFails (.list items) second 0 .malformedEncoding (.nestedList .path)
  | pathEmpty (second : Rlp.Item) : PairFails (.bytes []) second 1 .malformedEncoding .emptyPath
  | flag {first : UInt8} (rest : Bytes) (second : Rlp.Item) (h : 3 < first.toNat / 16) :
    PairFails (.bytes (first :: rest)) second 2 .malformedEncoding (.pathFlag (first.toNat / 16))
  | padding {first : UInt8} (rest : Bytes) (second : Rlp.Item)
    (heven : first.toNat / 16 % 2 = 0) (h : first.toNat % 16 ≠ 0) :
    PairFails (.bytes (first :: rest)) second 3 .malformedEncoding .pathPadding
  | secondList (path : Rlp.Item) (items : List Rlp.Item) :
    PairFails path (.list items) 4 .malformedEncoding (.nestedList .second)
  | reference {first : UInt8} (rest : Bytes) {b : Bytes} (hextension : first.toNat / 32 % 2 = 0)
    (h : b.length ≠ 32) :
    PairFails (.bytes (first :: rest)) (.bytes b) 5 .invalidHashLength (.referenceSize b.length)

/-- An item that cannot stand in the slot with this index. -/
inductive BadSlot (i : Nat) : Rlp.Item → Kind → Fault → Prop
  | list (items : List Rlp.Item) :
    BadSlot i (.list items) .malformedEncoding (.nestedList (.slot i))
  | reference {b : Bytes} (hfull : b.length ≠ 0) (h : b.length ≠ 32) :
    BadSlot i (.bytes b) .invalidHashLength (.referenceSize b.length)

/-- The checks of the slots of a branch, of which the first has the index `start`. -/
def SlotFails (start : Nat) (items : List Rlp.Item) (n : Nat) (kind : Kind) (f : Fault) : Prop :=
  ∃ item, items[n]? = some item ∧ BadSlot (start + n) item kind f

/-- The fault that is told of an entry, and its kind. -/
inductive Rejected (raw : Bytes) : Kind → Fault → Prop
  | undecodable (h : Rlp.Undecodable raw) : Rejected raw .malformedEncoding .notRlp
  | string {content : Bytes} (h : Rlp.IsEncoding (.bytes content) raw) :
    Rejected raw .malformedEncoding .rlpString
  | count {items : List Rlp.Item} (h : Rlp.IsEncoding (.list items) raw)
    (hpair : items.length ≠ 2) (hslots : items.length ≠ 17) :
    Rejected raw .unknownShape (.itemCount items.length)
  | pair {first second : Rlp.Item} (h : Rlp.IsEncoding (.list [first, second]) raw) {kind : Kind}
    {f : Fault} (hfirst : FirstFailure (PairFails first second) kind f) : Rejected raw kind f
  | slots {items : List Rlp.Item} (h : Rlp.IsEncoding (.list items) raw)
    (hcount : items.length = 17) {kind : Kind} {f : Fault}
    (hfirst : FirstFailure (SlotFails 0 items) kind f) : Rejected raw kind f

/-! ## First failures -/

section FirstFailure

variable {fails : Nat → Kind → Fault → Prop} {kind kind' : Kind} {f f' : Fault}

theorem FirstFailure.zero (h : fails 0 kind f) : FirstFailure fails kind f :=
  ⟨0, h, fun _ hm => absurd hm (Nat.not_lt_zero _)⟩

/-- A check that passes in front of others leaves their first failure. -/
theorem FirstFailure.succ {later : Nat → Kind → Fault → Prop}
    (hlater : ∀ n kind f, fails (n + 1) kind f ↔ later n kind f)
    (hzero : ∀ kind f, ¬ fails 0 kind f) (h : FirstFailure later kind f) :
    FirstFailure fails kind f := by
  obtain ⟨n, hfails, hbefore⟩ := h
  refine ⟨n + 1, (hlater n kind f).mpr hfails, fun m hm kind' f' => ?_⟩
  cases m with
  | zero => exact hzero kind' f'
  | succ m =>
      rw [hlater]
      exact hbefore m (Nat.lt_of_succ_lt_succ hm) kind' f'

theorem FirstFailure.unique
    (hdet : ∀ n kind f kind' f', fails n kind f → fails n kind' f' → f = f')
    (h : FirstFailure fails kind f) (h' : FirstFailure fails kind' f') : f = f' := by
  obtain ⟨n, hfails, hbefore⟩ := h
  obtain ⟨m, hfails', hbefore'⟩ := h'
  obtain hlt | rfl | hlt := Nat.lt_trichotomy n m
  · exact absurd hfails (hbefore' n hlt kind f)
  · exact hdet n kind f kind' f' hfails hfails'
  · exact absurd hfails' (hbefore m hlt kind' f')

/-- Checks that all pass when there is a result, and of which the first failure is the fault when
there is none, decide the result. -/
theorem error_iff_firstFailure {α : Type} {e : Except Fault α}
    (hdet : ∀ n kind f kind' f', fails n kind f → fails n kind' f' → f = f')
    (hok : ∀ a, e = .ok a → ∀ n kind f, ¬ fails n kind f)
    (herror : ∀ f, e = .error f → ∃ kind, FirstFailure fails kind f) (f : Fault) :
    e = .error f ↔ ∃ kind, FirstFailure fails kind f := by
  refine ⟨herror f, fun ⟨kind, h⟩ => ?_⟩
  cases e with
  | ok a =>
      obtain ⟨n, hfails, _⟩ := h
      exact absurd hfails (hok a rfl n kind f)
  | error f' =>
      obtain ⟨kind', h'⟩ := herror f' rfl
      rw [h'.unique hdet h]

end FirstFailure

namespace Content

/-! ## A pair -/

theorem pairFails_det {first second : Rlp.Item} (n : Nat) (kind : Kind) (f : Fault) (kind' : Kind)
    (f' : Fault) (h : PairFails first second n kind f) (h' : PairFails first second n kind' f') :
    f = f' := by
  cases h <;> cases h' <;> rfl

theorem padding_eq_zero_iff (x : UInt8) : x % 16 = 0 ↔ x.toNat % 16 = 0 := by
  rw [← UInt8.toNat_inj, UInt8.toNat_mod]
  rfl

/-- A path that is read passes the checks of its first byte, which tells whether it is a leaf. -/
theorem first_of_ofCompact {compact : Bytes} {key : Key} (h : Key.ofCompact compact = .ok key) :
    ∃ x rest, compact = x :: rest ∧ x.toNat / 16 ≤ 3 ∧
      (x.toNat / 16 % 2 = 0 → x.toNat % 16 = 0) ∧ key.isLeaf = decide (2 ≤ x.toNat / 16) := by
  obtain ⟨x, rest, rfl, hle, ⟨hodd, rfl⟩ | ⟨_, hzero, rfl⟩⟩ := Compact.decode_cases h
  · exact ⟨x, rest, rfl, hle, fun heven => by omega, rfl⟩
  · exact ⟨x, rest, rfl, hle, fun _ => (padding_eq_zero_iff x).mp hzero, rfl⟩

theorem firstFailure_of_ofCompact {compact : Bytes} {f : Fault}
    (h : Key.ofCompact compact = .error f) (second : Rlp.Item) :
    ∃ kind, FirstFailure (PairFails (.bytes compact) second) kind f := by
  cases compact with
  | nil =>
      cases h
      refine ⟨_, 1, .pathEmpty second, fun m hm kind' f' hfails => ?_⟩
      -- What fails of this pair besides has a number that is not below this one.
      cases hfails <;> omega
  | cons x rest =>
      simp only [Key.ofCompact, Compact.decode] at h
      split at h
      · next hflag =>
          cases h
          refine ⟨_, 2, .flag rest second hflag, fun m hm kind' f' hfails => ?_⟩
          cases hfails <;> omega
      · next hflag =>
          split at h
          · cases h
          · next hodd =>
              split at h
              · cases h
              · next hzero =>
                  cases h
                  have hpadding := (padding_eq_zero_iff x).not.mp hzero
                  refine ⟨_, 3, .padding rest second (by omega) hpadding,
                    fun m hm kind' f' hfails => ?_⟩
                  cases hfails <;> omega

theorem reference_error_iff (b : Bytes) (f : Fault) :
    reference b = .error f ↔ b.length ≠ 32 ∧ f = .referenceSize b.length := by
  unfold reference Digest.ofBytes?
  by_cases hsize : b.length = 32
  · simp [hsize]
  · simp [hsize, eq_comm]

theorem firstFailure_of_ofPair {first second : Rlp.Item} (f : Fault)
    (h : ofPair first second = .error f) :
    ∃ kind, FirstFailure (PairFails first second) kind f := by
  cases first with
  | list items =>
      cases h
      exact ⟨_, .zero (.pathList items second)⟩
  | bytes compact =>
      simp only [ofPair, expectBytes] at h
      cases hkey : Key.ofCompact compact with
      | error f' =>
          rw [hkey] at h
          cases h
          exact firstFailure_of_ofCompact hkey second
      | ok key =>
          -- The first byte is in order, so the checks of the path pass.
          obtain ⟨x, rest, rfl, hflag, hpadding, hleaf⟩ := first_of_ofCompact hkey
          obtain ⟨path, hpath⟩ := Key.bare_ofCompact _ key hkey
          rw [hkey] at h
          cases second with
          | list items =>
              cases h
              refine ⟨_, 4, .secondList _ items, fun m hm kind' f' hfails => ?_⟩
              cases hfails <;> omega
          | bytes b =>
              simp only [hpath, hleaf] at h
              split at h
              · cases h
              · next hextension =>
                  obtain ⟨hsize, rfl⟩ := (reference_error_iff b f).mp (map_fault _ _ _ h)
                  rw [decide_eq_true_iff] at hextension
                  refine ⟨_, 5, .reference rest (by omega) hsize, fun m hm kind' f' hfails => ?_⟩
                  cases hfails <;> omega

theorem not_pairFails_of_ok {first second : Rlp.Item} (c : Content Digest)
    (h : ofPair first second = .ok c) (n : Nat) (kind : Kind) (f : Fault) :
    ¬ PairFails first second n kind f := by
  obtain ⟨compact, key, b, path, rfl, rfl, hkey, _, hc⟩ := (ofPair_ok_iff _ _ _).mp h
  obtain ⟨x, rest, rfl, hflag, hpadding, hleaf⟩ := first_of_ofCompact hkey
  have hsize : 2 ≤ x.toNat / 16 ∨ b.length = 32 := by
    rw [hleaf] at hc
    split at hc
    · next hle => exact Or.inl (of_decide_eq_true hle)
    · obtain ⟨d, hd, _⟩ := map_ok _ _ _ hc
      exact Or.inr ((reference_ok_iff b d).mp hd ▸ d.size_eq)
  intro hfails
  cases hfails <;> omega

theorem ofPair_error_iff (first second : Rlp.Item) (f : Fault) :
    ofPair first second = .error f ↔ ∃ kind, FirstFailure (PairFails first second) kind f :=
  error_iff_firstFailure pairFails_det not_pairFails_of_ok firstFailure_of_ofPair f

/-! ## Slots -/

theorem slotFails_det {start : Nat} {items : List Rlp.Item} (n : Nat) (kind : Kind) (f : Fault)
    (kind' : Kind) (f' : Fault) (h : SlotFails start items n kind f)
    (h' : SlotFails start items n kind' f') : f = f' := by
  obtain ⟨item, hitem, hbad⟩ := h
  obtain ⟨item', hitem', hbad'⟩ := h'
  obtain rfl := Option.some.inj (hitem.symm.trans hitem')
  cases hbad <;> cases hbad' <;> rfl

theorem not_badSlot_of_ok {i : Nat} {item : Rlp.Item} {s : Option Digest}
    (h : slot i item = .ok s) (kind : Kind) (f : Fault) : ¬ BadSlot i item kind f := by
  obtain ⟨b, rfl, hsize, _⟩ := (slot_ok_iff i item s).mp h
  rintro ⟨⟩
  omega

theorem badSlot_of_slot {i : Nat} {item : Rlp.Item} {f : Fault} (h : slot i item = .error f) :
    ∃ kind, BadSlot i item kind f := by
  cases item with
  | list items =>
      cases h
      exact ⟨_, .list items⟩
  | bytes b =>
      cases b with
      | nil => cases h
      | cons x rest =>
          have href : (reference (x :: rest)).map some = .error f := h
          obtain ⟨hsize, rfl⟩ := (reference_error_iff _ f).mp (map_fault _ _ _ href)
          exact ⟨_, .reference (Nat.succ_ne_zero _) hsize⟩

theorem slotFails_succ (start : Nat) (item : Rlp.Item) (rest : List Rlp.Item) (n : Nat)
    (kind : Kind) (f : Fault) :
    SlotFails start (item :: rest) (n + 1) kind f ↔ SlotFails (start + 1) rest n kind f := by
  have hindex : start + (n + 1) = start + 1 + n := by omega
  rw [SlotFails, SlotFails, List.getElem?_cons_succ, hindex]

/-- The slots are read from the lowest on, and the reading stops at the first that is bad. -/
theorem firstFailure_of_slots (items : List Rlp.Item) (start : Nat) (f : Fault)
    (h : slots start items = .error f) : ∃ kind, FirstFailure (SlotFails start items) kind f := by
  induction items generalizing start with
  | nil => cases h
  | cons item rest ih =>
      simp only [slots] at h
      cases hslot : slot start item with
      | error f' =>
          rw [hslot] at h
          cases h
          obtain ⟨kind, hbad⟩ := badSlot_of_slot hslot
          exact ⟨kind, .zero ⟨item, rfl, hbad⟩⟩
      | ok s =>
          rw [hslot] at h
          obtain ⟨kind, hrest⟩ := ih (start + 1) (map_fault _ _ _ h)
          refine ⟨kind, .succ (slotFails_succ start item rest) ?_ hrest⟩
          rintro kind f ⟨_, hitem, hbad⟩
          cases hitem
          exact not_badSlot_of_ok hslot kind f hbad

theorem not_slotFails_of_ok {items : List Rlp.Item} {start : Nat} (found : List (Option Digest))
    (h : slots start items = .ok found) (n : Nat) (kind : Kind) (f : Fault) :
    ¬ SlotFails start items n kind f := by
  obtain ⟨bs, rfl, hsizes, _⟩ := (slots_ok_iff _ _ _).mp h
  rintro ⟨item, hitem, hbad⟩
  obtain ⟨b, hb, rfl⟩ := List.mem_map.mp (List.mem_of_getElem? hitem)
  have hsize := hsizes b hb
  cases hbad
  omega

theorem slots_error_iff (start : Nat) (items : List Rlp.Item) (f : Fault) :
    slots start items = .error f ↔ ∃ kind, FirstFailure (SlotFails start items) kind f :=
  error_iff_firstFailure slotFails_det not_slotFails_of_ok (firstFailure_of_slots items start) f

/-! ## Entries -/

theorem ofItems_of_other_length {items : List Rlp.Item} (hpair : items.length ≠ 2)
    (hslots : items.length ≠ 17) : ofItems items = .error (.itemCount items.length) := by
  unfold ofItems
  split
  · exact absurd rfl hpair
  · exact if_neg hslots

theorem rejected_of_ofItems {raw : Bytes} {items : List Rlp.Item}
    (hraw : Rlp.IsEncoding (.list items) raw) {f : Fault} (h : ofItems items = .error f) :
    ∃ kind, Rejected raw kind f := by
  by_cases hslots : items.length = 17
  · rw [ofItems_of_length hslots] at h
    obtain ⟨kind, hfirst⟩ := (slots_error_iff 0 items f).mp (map_fault _ _ _ h)
    exact ⟨kind, .slots hraw hslots hfirst⟩
  · by_cases hpair : items.length = 2
    · obtain ⟨first, second, rfl⟩ := List.length_eq_two.mp hpair
      obtain ⟨kind, hfirst⟩ := (ofPair_error_iff first second f).mp h
      exact ⟨kind, .pair hraw hfirst⟩
    · rw [ofItems_of_other_length hpair hslots] at h
      cases h
      exact ⟨_, .count hraw hpair hslots⟩

theorem decode_error_iff_rejected (raw : Bytes) (f : Fault) :
    decode raw = .error f ↔ ∃ kind, Rejected raw kind f := by
  constructor
  · intro h
    unfold decode at h
    split at h
    · next hnone =>
        cases h
        exact ⟨_, .undecodable ((Rlp.decode_eq_none_iff raw).mp hnone)⟩
    · next content hbytes =>
        cases h
        exact ⟨_, .string ((Rlp.decode_eq_some_iff raw _).mp hbytes)⟩
    · next items hlist => exact rejected_of_ofItems ((Rlp.decode_eq_some_iff raw _).mp hlist) h
  · rintro ⟨kind, h⟩
    cases h with
    | undecodable h => rw [decode, (Rlp.decode_eq_none_iff raw).mpr h]
    | string h => rw [decode, (Rlp.decode_eq_some_iff raw _).mpr h]
    | count h hpair hslots => rw [decode_of_list h, ofItems_of_other_length hpair hslots]
    | @pair first second h kind f hfirst =>
        rw [decode_of_list h]
        exact (ofPair_error_iff first second f).mpr ⟨kind, hfirst⟩
    | @slots items h hcount kind f hfirst =>
        rw [decode_of_list h, ofItems_of_length hcount,
          (slots_error_iff 0 items f).mpr ⟨kind, hfirst⟩]
        rfl

end Content

theorem Rejected.kind_eq {raw : Bytes} {kind : Kind} {f : Fault} (h : Rejected raw kind f) :
    f.kind? = some kind := by
  cases h with
  | undecodable | string | count => rfl
  | pair _ hfirst =>
      obtain ⟨_, hfails, _⟩ := hfirst
      cases hfails <;> rfl
  | slots _ _ hfirst =>
      obtain ⟨_, ⟨_, _, hbad⟩, _⟩ := hfirst
      cases hbad <;> rfl

/-- **Which fault is told of an entry.** An entry, read for children of either mode, fails with a
fault exactly if the entry is rejected with it, and the kind of the fault is the one given there;
so it decodes exactly if it is not rejected at all. What is rejected as no item is what reading
turns away: a byte string with a fault at any depth. The messages tell this, the slot that holds a
list, and the length of what is no reference. -/
theorem decodeNodes_error_iff_rejected (raw : Bytes) (hashesKeys : Bool) :
    (Rlp.decode raw = none ↔ Rlp.Undecodable raw) ∧
    (∀ f, Content.decodeNodes raw hashesKeys = .error f ↔ ∃ kind, Rejected raw kind f) ∧
    (∀ kind f, Rejected raw kind f → f.kind? = some kind) ∧
    ((∃ c, Content.decodeNodes raw hashesKeys = .ok c) ↔ ∀ kind f, ¬ Rejected raw kind f) ∧
    Fault.message .notRlp = "node is not valid RLP" ∧
    (∀ i, Fault.message (.nestedList (.slot i)) =
      "branch slot " ++ toString i ++ " is a list, expected bytes") ∧
    ∀ n, Fault.message (.referenceSize n) =
      "child reference is " ++ toString n ++ " bytes, expected 32" := by
  have herror (f : Fault) :
      Content.decodeNodes raw hashesKeys = .error f ↔ ∃ kind, Rejected raw kind f :=
    (Content.decodeNodes_error_iff raw hashesKeys f).trans (Content.decode_error_iff_rejected raw f)
  refine ⟨Rlp.decode_eq_none_iff raw, herror, fun _ _ h => h.kind_eq, ?_, rfl, fun _ => rfl,
    fun _ => rfl⟩
  constructor
  · rintro ⟨c, hc⟩ kind f h
    have hf := (herror f).mpr ⟨kind, h⟩
    rw [hc] at hf
    cases hf
  · intro h
    cases hresult : Content.decodeNodes raw hashesKeys with
    | ok c => exact ⟨c, rfl⟩
    | error f =>
        obtain ⟨kind, hf⟩ := (herror f).mp hresult
        exact absurd hf (h kind f)

/-- A list of three items, of which the last is a list with a wrapped byte, is no item at all,
whatever its count. A pair with a flag nibble of 4, a padding of 1 and a list behind the path is
told by its flag. -/
theorem decodeNodes_error_iff_rejected_many :
    let triple : Bytes := [0xc5, 0x01, 0x02, 0xc2, 0x81, 0x05]
    let pair : Bytes := [0xc2, 0x41, 0xc0]
    Content.decodeNodes triple true = .error .notRlp ∧
      Fault.kind? .notRlp = some .malformedEncoding ∧
      PairFails (.bytes [0x41]) (.list []) 3 .malformedEncoding .pathPadding ∧
      PairFails (.bytes [0x41]) (.list []) 4 .malformedEncoding (.nestedList .second) ∧
      Content.decodeNodes pair true = .error (.pathFlag 4) := by
  intro triple pair
  obtain ⟨_, htriple, hkind, _⟩ := decodeNodes_error_iff_rejected triple true
  obtain ⟨_, hpair, _⟩ := decodeNodes_error_iff_rejected pair true
  have hinner : Rlp.Framed [0x81, 0x05] := @Rlp.Framed.string [0x05] (by decide)
  have hparts : ∀ part ∈ [[0x81, 0x05]], Rlp.Framed part := by
    simp [hinner]
  have hlist : Rlp.Framed [0xc2, 0x81, 0x05] := @Rlp.Framed.list [0x81, 0x05] (by decide)
  have hitems : ∀ part ∈ [[0x01], [0x02], [0xc2, 0x81, 0x05]], Rlp.Framed part := by
    simp [hlist, @Rlp.Framed.byte 1 (by decide), @Rlp.Framed.byte 2 (by decide)]
  have hwrapped : Rlp.Undecodable [0x81, 0x05] := .wrapped (by decide)
  have hnested : Rlp.Undecodable [0xc2, 0x81, 0x05] :=
    .part hparts (by decide) (List.mem_singleton.mpr rfl) hwrapped
  have hrejected : Rejected triple .malformedEncoding .notRlp :=
    .undecodable (.part hitems (by decide) (by simp) hnested)
  have hencodes : Rlp.IsEncoding (.list [.bytes [0x41], .list []]) pair := ⟨by decide, by decide⟩
  have hfirst : FirstFailure (PairFails (.bytes [0x41]) (.list [])) .malformedEncoding
      (.pathFlag 4) := by
    refine ⟨2, .flag [] (.list []) (by decide), fun m hm kind f hfails => ?_⟩
    cases hfails <;> omega
  exact ⟨(htriple _).mpr ⟨_, hrejected⟩, hkind _ _ hrejected,
    .padding [] (.list []) (by decide) (by decide), .secondList (.bytes [0x41]) [],
    (hpair _).mpr ⟨_, .pair hencodes hfirst⟩⟩

end Patricia
