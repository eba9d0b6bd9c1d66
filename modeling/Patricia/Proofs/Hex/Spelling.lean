import Mathlib.Order.Bounds.Basic
import Patricia.Hex.Parse
import Patricia.Proofs.Path.Nibbles

/-
  The language of hexadecimal texts.

  `Spells` says which texts spell which bytes: two digits of either case for each byte, blanks
  between bytes and at both ends. Reading accepts these texts, alone or behind one mark, and no
  others (`parse_ok_iff`).

  A text that is turned away is told a position. If all its characters are ASCII, this is the length
  of its longest beginning that some spelling goes on with (`Viable`, `scan_error`): texts that
  spell bytes can be put one behind the other, so what was read so far never has to be taken back
  (`spells_append_iff`). A character outside ASCII is looked for first, and wins over any fault in
  front of it.
-/

namespace Patricia.Hex

/-- The blanks of ASCII. -/
def blanks : List Char := [' ', '\t', '\n', '\x0b', '\x0c', '\r']

/-- The character is the digit for a value, in lower or upper case. -/
def DigitFor (n : Nat) (c : Char) : Prop := n < 16 ∧ c.toLower = digit n

instance (n : Nat) (c : Char) : Decidable (DigitFor n c) := inferInstanceAs (Decidable (_ ∧ _))

/-- The text spells the bytes. -/
inductive Spells : Bytes → List Char → Prop
  | nil : Spells [] []
  | blank {b : Bytes} {c : Char} {t : List Char} (hc : c ∈ blanks) (h : Spells b t) :
    Spells b (c :: t)
  | byte {x : UInt8} {b : Bytes} {c d : Char} {t : List Char} (hhigh : DigitFor (x.toNat / 16) c)
    (hlow : DigitFor (x.toNat % 16) d) (h : Spells b t) : Spells (x :: b) (c :: d :: t)

/-- Some spelling starts with the text. -/
def Viable (t : List Char) : Prop := ∃ b more, Spells b (t ++ more)

/-- The text spells bytes, and then one more digit. -/
def StopsInByte (t : List Char) : Prop :=
  ∃ b front n c, Spells b front ∧ DigitFor n c ∧ t = front ++ [c]

/-! ## Characters -/

theorem isBlank_iff (c : Char) : isBlank c = true ↔ c ∈ blanks := by
  simp [isBlank, blanks, or_assoc]

theorem toLower_of_foreign {c : Char} (h : 128 ≤ c.toNat) : c.toLower = c := by
  unfold Char.toLower
  refine dif_neg fun hupper => ?_
  have hle : c.toNat ≤ 0x5a := hupper.2
  omega

theorem digit_ascii {n : Nat} (h : n < 16) : (digit n).toNat < 128 := by
  have hall : ∀ m < 16, (digit m).toNat < 128 := by decide
  exact hall n h

theorem DigitFor.ascii {n : Nat} {c : Char} (h : DigitFor n c) : c.toNat < 128 := by
  by_contra hforeign
  have hdigit := digit_ascii h.1
  rw [← h.2, toLower_of_foreign (Nat.le_of_not_lt hforeign)] at hdigit
  exact hforeign hdigit

theorem value?_ascii {n : Nat} {c : Char} (h : value? c = some n) : c.toNat < 128 := by
  unfold value? at h
  split at h
  next hrange =>
    have hle : c.toNat ≤ 0x39 := hrange.2
    omega
  · split at h
    next hrange =>
      have hle : c.toNat ≤ 0x66 := hrange.2
      omega
    · split at h
      next hrange =>
        have hle : c.toNat ≤ 0x46 := hrange.2
        omega
      · cases h

/-- A character has a value exactly if it is the digit for it. -/
theorem value?_eq_some_iff {n : Nat} {c : Char} : value? c = some n ↔ DigitFor n c := by
  have hrange : ∀ i < 128, ∀ m ∈ value? (Char.ofNat i), m < 16 := by decide +kernel
  have hall : ∀ i < 128, ∀ m < 16,
      value? (Char.ofNat i) = some m ↔ (Char.ofNat i).toLower = digit m := by decide +kernel
  constructor
  · intro h
    have hascii := value?_ascii h
    rw [← Char.ofNat_toNat c] at h ⊢
    have hn := hrange _ hascii n h
    exact ⟨hn, (hall _ hascii n hn).mp h⟩
  · intro h
    have hascii := h.ascii
    obtain ⟨hn, hlower⟩ := h
    rw [← Char.ofNat_toNat c] at hlower ⊢
    exact (hall _ hascii n hn).mpr hlower

theorem value?_blank {c : Char} (h : c ∈ blanks) : value? c = none := by
  simp only [blanks, List.mem_cons, List.not_mem_nil, or_false] at h
  obtain rfl | rfl | rfl | rfl | rfl | rfl := h <;> rfl

theorem blank_ascii {c : Char} (h : c ∈ blanks) : c.toNat < 128 := by
  simp only [blanks, List.mem_cons, List.not_mem_nil, or_false] at h
  obtain rfl | rfl | rfl | rfl | rfl | rfl := h <;> decide

theorem not_digitFor_blank {n : Nat} {c : Char} (h : c ∈ blanks) : ¬ DigitFor n c := by
  rw [← value?_eq_some_iff, value?_blank h]
  exact nofun

theorem digitFor_digit {n : Nat} (h : n < 16) : DigitFor n (digit n) := by
  have hall : ∀ m < 16, (digit m).toLower = digit m := by decide
  exact ⟨h, hall n h⟩

theorem DigitFor.unique {m n : Nat} {c : Char} (hm : DigitFor m c) (hn : DigitFor n c) : m = n :=
  Option.some.inj ((value?_eq_some_iff.mpr hm).symm.trans (value?_eq_some_iff.mpr hn))

/-! ## Spellings -/

theorem spells_encodeList (b : Bytes) : Spells b (encodeList b) := by
  induction b with
  | nil => exact .nil
  | cons x rest ih =>
      exact .byte (digitFor_digit (div_sixteen_lt x)) (digitFor_digit (Nat.mod_lt _ (by decide))) ih

theorem Spells.ascii {b : Bytes} {t : List Char} (h : Spells b t) : ∀ c ∈ t, c.toNat < 128 := by
  induction h with
  | nil => exact nofun
  | blank hc _ ih => exact List.forall_mem_cons.mpr ⟨blank_ascii hc, ih⟩
  | byte hhigh hlow _ ih =>
      exact List.forall_mem_cons.mpr ⟨hhigh.ascii, List.forall_mem_cons.mpr ⟨hlow.ascii, ih⟩⟩

theorem spells_nil_iff {b : Bytes} : Spells b [] ↔ b = [] := by
  constructor
  · intro h
    cases h
    rfl
  · rintro rfl
    exact .nil

/-- A spelling starts with a blank, or with two digits. -/
theorem Spells.head {b : Bytes} {c : Char} {t : List Char} (h : Spells b (c :: t)) :
    c ∈ blanks ∨ ∃ m n d rest, DigitFor m c ∧ DigitFor n d ∧ t = d :: rest := by
  cases h with
  | blank hc => exact Or.inl hc
  | byte hhigh hlow => exact Or.inr ⟨_, _, _, _, hhigh, hlow, rfl⟩

theorem spells_blank_iff {b : Bytes} {c : Char} {t : List Char} (hc : c ∈ blanks) :
    Spells b (c :: t) ↔ Spells b t := by
  refine ⟨fun h => ?_, .blank hc⟩
  cases h with
  | blank _ h => exact h
  | byte hhigh => exact absurd hhigh (not_digitFor_blank hc)

theorem spells_digits_iff {b : Bytes} {m n : Nat} {c d : Char} {t : List Char}
    (hc : DigitFor m c) (hd : DigitFor n d) :
    Spells b (c :: d :: t) ↔ ∃ rest, b = UInt8.ofNat (16 * m + n) :: rest ∧ Spells rest t := by
  constructor
  · intro h
    cases h with
    | blank hblank => exact absurd hc (not_digitFor_blank hblank)
    | @byte x rest _ _ _ hhigh hlow h =>
        refine ⟨rest, ?_, h⟩
        rw [hc.unique hhigh, hd.unique hlow, Nat.div_add_mod, UInt8.ofNat_toNat]
  · rintro ⟨rest, rfl, h⟩
    have hjoin := Nibbles.toNat_join hc.1 hd.1
    have hdiv : (16 * m + n) / 16 = m := by
      have := hd.1
      omega
    have hmod : (16 * m + n) % 16 = n := by
      have := hd.1
      omega
    exact .byte (by rwa [hjoin, hdiv]) (by rwa [hjoin, hmod]) h

/-- Behind a spelling stands a spelling of what is left. -/
theorem spells_append_iff {a b : Bytes} {s t : List Char} (hs : Spells a s) :
    Spells b (s ++ t) ↔ ∃ rest, b = a ++ rest ∧ Spells rest t := by
  induction hs generalizing b with
  | nil => exact ⟨fun h => ⟨b, rfl, h⟩, fun ⟨_, hb, h⟩ => hb ▸ h⟩
  | blank hc _ ih => rw [List.cons_append, spells_blank_iff hc, ih]
  | @byte x _ _ _ _ hhigh hlow _ ih =>
      rw [List.cons_append, List.cons_append, spells_digits_iff hhigh hlow, Nat.div_add_mod,
        UInt8.ofNat_toNat]
      constructor
      · rintro ⟨both, rfl, h⟩
        obtain ⟨rest, rfl, hrest⟩ := ih.mp h
        exact ⟨rest, rfl, hrest⟩
      · rintro ⟨rest, rfl, h⟩
        exact ⟨_, rfl, ih.mpr ⟨rest, rfl, h⟩⟩

/-! ## Beginnings -/

theorem viable_of_spells {b : Bytes} {t : List Char} (h : Spells b t) : Viable t :=
  ⟨b, [], by rwa [List.append_nil]⟩

theorem viable_nil : Viable [] := viable_of_spells .nil

theorem viable_append_iff {b : Bytes} {s t : List Char} (hs : Spells b s) :
    Viable (s ++ t) ↔ Viable t := by
  unfold Viable
  simp only [List.append_assoc, spells_append_iff hs]
  constructor
  · rintro ⟨_, more, rest, _, h⟩
    exact ⟨rest, more, h⟩
  · rintro ⟨rest, more, h⟩
    exact ⟨b ++ rest, more, rest, rfl, h⟩

/-- A first digit can be completed. -/
theorem viable_singleton {n : Nat} {c : Char} (hc : DigitFor n c) : Viable [c] :=
  ⟨_, ['0'], (spells_digits_iff hc (digitFor_digit (show 0 < 16 by decide))).mpr ⟨_, rfl, .nil⟩⟩

/-- A beginning is a spelling, or it stops inside a byte. -/
theorem viable_iff {t : List Char} : Viable t ↔ (∃ b, Spells b t) ∨ StopsInByte t := by
  constructor
  · rintro ⟨b, more, h⟩
    generalize htext : t ++ more = text at h
    induction h generalizing t with
    | nil => exact Or.inl ⟨[], by rw [(List.append_eq_nil_iff.mp htext).1]; exact .nil⟩
    | blank hc h ih =>
        cases t with
        | nil => exact Or.inl ⟨[], .nil⟩
        | cons c' t =>
            obtain ⟨rfl, hrest⟩ := List.cons.inj htext
            obtain ⟨b, hb⟩ | ⟨b, front, n, d, hfront, hd, rfl⟩ := ih hrest
            · exact Or.inl ⟨b, .blank hc hb⟩
            · exact Or.inr ⟨b, _ :: front, n, d, .blank hc hfront, hd, rfl⟩
    | byte hhigh hlow h ih =>
        match t with
        | [] => exact Or.inl ⟨[], .nil⟩
        | [c'] =>
            obtain ⟨rfl, _⟩ := List.cons.inj htext
            exact Or.inr ⟨[], [], _, _, .nil, hhigh, rfl⟩
        | c' :: d' :: t =>
            obtain ⟨rfl, hbehind⟩ := List.cons.inj htext
            obtain ⟨rfl, hrest⟩ := List.cons.inj hbehind
            obtain ⟨b, hb⟩ | ⟨b, front, n, d, hfront, hd, rfl⟩ := ih hrest
            · exact Or.inl ⟨_, .byte hhigh hlow hb⟩
            · exact Or.inr ⟨_, _ :: _ :: front, n, d, .byte hhigh hlow hfront, hd, rfl⟩
  · rintro (⟨b, hb⟩ | ⟨b, front, n, c, hfront, hc, rfl⟩)
    · exact viable_of_spells hb
    · exact (viable_append_iff hfront).mpr (viable_singleton hc)

theorem not_viable_cons {c : Char} {t : List Char} (hblank : c ∉ blanks) (hc : value? c = none) :
    ¬ Viable (c :: t) := by
  rintro ⟨b, more, h⟩
  rw [List.cons_append] at h
  obtain hc' | ⟨m, _, _, _, hm, _⟩ := h.head
  · exact hblank hc'
  · cases hc.symm.trans (value?_eq_some_iff.mpr hm)

theorem not_viable_cons_cons {n : Nat} {c d : Char} {t : List Char} (hc : DigitFor n c)
    (hd : value? d = none) : ¬ Viable (c :: d :: t) := by
  rintro ⟨b, more, h⟩
  rw [List.cons_append, List.cons_append] at h
  obtain hblank | ⟨_, k, d', _, _, hk, hbehind⟩ := h.head
  · exact not_digitFor_blank hblank hc
  · obtain ⟨rfl, _⟩ := List.cons.inj hbehind
    cases hd.symm.trans (value?_eq_some_iff.mpr hk)

/-- The lengths of the beginnings of a text that some spelling starts with. -/
def viableLengths (t : List Char) : Set Nat := {n | n ≤ t.length ∧ Viable (t.take n)}

theorem isGreatest_append {b : Bytes} {s t : List Char} {n : Nat} (hs : Spells b s)
    (h : IsGreatest (viableLengths t) n) : IsGreatest (viableLengths (s ++ t)) (s.length + n) := by
  obtain ⟨⟨hn, hviable⟩, hmax⟩ := h
  refine ⟨⟨by rw [List.length_append]; omega, ?_⟩, fun m ⟨hm, hm'⟩ => ?_⟩
  · rwa [List.take_length_add_append, viable_append_iff hs]
  · obtain hlt | hle := Nat.lt_or_ge m s.length
    · omega
    · obtain ⟨k, rfl⟩ := Nat.exists_eq_add_of_le hle
      rw [List.take_length_add_append, viable_append_iff hs] at hm'
      rw [List.length_append] at hm
      have hk : k ≤ n := hmax ⟨by omega, hm'⟩
      omega

theorem isGreatest_zero {c : Char} {t : List Char} (hblank : c ∉ blanks) (hc : value? c = none) :
    IsGreatest (viableLengths (c :: t)) 0 := by
  refine ⟨⟨Nat.zero_le _, viable_nil⟩, fun m ⟨_, hm⟩ => ?_⟩
  cases m with
  | zero => exact Nat.le_refl 0
  | succ m => exact absurd hm (not_viable_cons hblank hc)

theorem isGreatest_one {n : Nat} {c : Char} {t : List Char} (hc : DigitFor n c)
    (ht : ∀ d, t.head? = some d → value? d = none) : IsGreatest (viableLengths (c :: t)) 1 := by
  refine ⟨⟨Nat.succ_le_succ (Nat.zero_le _), viable_singleton hc⟩, fun m ⟨hle, hm⟩ => ?_⟩
  match m, t with
  | 0, _ => exact Nat.zero_le 1
  | 1, _ => exact Nat.le_refl 1
  | m + 2, [] => exact hle
  | m + 2, d :: t => exact absurd hm (not_viable_cons_cons hc (ht d rfl))

/-! ## Reading -/

theorem scan_ok_iff {i : Nat} {t : List Char} {b : Bytes} : scan i t = .ok b ↔ Spells b t := by
  fun_induction scan i t generalizing b with
  | case1 => rw [spells_nil_iff, Except.ok.injEq, eq_comm]
  | case2 i c rest hc ih => rw [ih, spells_blank_iff ((isBlank_iff c).mp hc)]
  | case3 i c rest hblank hc =>
      rw [isBlank_iff] at hblank
      exact iff_of_false nofun fun h => not_viable_cons hblank hc (viable_of_spells h)
  | case4 i c hblank m hc =>
      rw [isBlank_iff] at hblank
      refine iff_of_false nofun fun h => ?_
      obtain hc' | ⟨_, _, _, _, _, _, hbehind⟩ := h.head
      · exact hblank hc'
      · cases hbehind
  | case5 i c hblank m hc d rest hd =>
      rw [value?_eq_some_iff] at hc
      exact iff_of_false nofun fun h => not_viable_cons_cons hc hd (viable_of_spells h)
  | case6 i c hblank m hc d rest n hd ih =>
      rw [value?_eq_some_iff] at hc hd
      rw [spells_digits_iff hc hd]
      simp only [← ih]
      cases scan (i + 2) rest with
      | error f => simp [Except.map]
      | ok rest => simp [Except.map, eq_comm]

/-- The position that is told is where the text stops being the beginning of a spelling. -/
theorem scan_error {i : Nat} {t : List Char} {f : Fault} (h : scan i t = .error f) :
    ∃ n, f = .hexDigit (i + n) ∧ IsGreatest (viableLengths t) n := by
  fun_induction scan i t with
  | case1 => cases h
  | case2 i c rest hc ih =>
      obtain ⟨n, rfl, hn⟩ := ih h
      refine ⟨1 + n, by rw [Nat.add_assoc], ?_⟩
      exact isGreatest_append (.blank ((isBlank_iff c).mp hc) .nil) hn
  | case3 i c rest hblank hc =>
      rw [isBlank_iff] at hblank
      exact ⟨0, (Except.error.inj h).symm, isGreatest_zero hblank hc⟩
  | case4 i c hblank m hc =>
      rw [value?_eq_some_iff] at hc
      exact ⟨1, (Except.error.inj h).symm, isGreatest_one hc nofun⟩
  | case5 i c hblank m hc d rest hd =>
      rw [value?_eq_some_iff] at hc
      refine ⟨1, (Except.error.inj h).symm, isGreatest_one hc fun d' hd' => ?_⟩
      rwa [← Option.some.inj hd']
  | case6 i c hblank m hc d rest k hd ih =>
      rw [value?_eq_some_iff] at hc hd
      cases hscan : scan (i + 2) rest with
      | ok b => rw [hscan] at h; cases h
      | error g =>
          rw [hscan] at h
          obtain rfl := Except.error.inj h
          obtain ⟨n, rfl, hn⟩ := ih hscan
          refine ⟨2 + n, by rw [Nat.add_assoc], ?_⟩
          have hpair : Spells [UInt8.ofNat (16 * m + k)] [c, d] :=
            (spells_digits_iff hc hd).mpr ⟨[], rfl, .nil⟩
          exact isGreatest_append hpair hn

/-! ## Texts -/

theorem isForeign_iff (c : Char) : isForeign c = true ↔ 128 ≤ c.toNat := decide_eq_true_iff

/-- The position that a text is turned away at. -/
structure FaultAt (t : List Char) (n : Nat) : Prop where
  foreign : (∃ c ∈ t, 128 ≤ c.toNat) →
    ∃ front c behind, t = front ++ c :: behind ∧ front.length = n ∧ 128 ≤ c.toNat ∧
      ∀ a ∈ front, a.toNat < 128
  ascii : (∀ c ∈ t, c.toNat < 128) → IsGreatest (viableLengths t) n
  at_end : n = t.length ↔ StopsInByte t

theorem Viable.ascii {t : List Char} (h : Viable t) : ∀ c ∈ t, c.toNat < 128 := by
  obtain ⟨b, more, h⟩ := h
  exact fun c hc => h.ascii c (List.mem_append_left more hc)

theorem eq_length_iff_viable {t : List Char} {n : Nat} (h : IsGreatest (viableLengths t) n) :
    n = t.length ↔ Viable t := by
  obtain ⟨⟨hn, hviable⟩, hmax⟩ := h
  constructor
  · rintro rfl
    rwa [List.take_length] at hviable
  · intro ht
    exact Nat.le_antisymm hn (hmax ⟨Nat.le_refl _, by rwa [List.take_length]⟩)

theorem parseList_ok_iff {t : List Char} {b : Bytes} : parseList t = .ok b ↔ Spells b t := by
  unfold parseList
  cases hfind : t.findIdx? isForeign with
  | none => exact scan_ok_iff
  | some i =>
      refine iff_of_false nofun fun h => ?_
      obtain ⟨hi, hforeign, _⟩ := List.findIdx?_eq_some_iff_getElem.mp hfind
      have hascii := h.ascii _ (List.getElem_mem hi)
      rw [isForeign_iff] at hforeign
      omega

/-- Among ASCII characters the position is that of reading. -/
theorem faultAt_of_ascii {t : List Char} {n : Nat} (hascii : ∀ c ∈ t, c.toNat < 128)
    (hspells : ∀ b, ¬ Spells b t) (hn : IsGreatest (viableLengths t) n) : FaultAt t n where
  foreign := fun ⟨c, hc, hforeign⟩ => absurd (hascii c hc) (Nat.not_lt.mpr hforeign)
  ascii := fun _ => hn
  at_end := by
    rw [eq_length_iff_viable hn, viable_iff]
    exact or_iff_right fun ⟨b, hb⟩ => hspells b hb

/-- The first character outside ASCII is in front of the end. -/
theorem faultAt_of_foreign {t : List Char} {i : Nat} (h : t.findIdx? isForeign = some i) :
    FaultAt t i := by
  obtain ⟨hi, hforeign, hfront⟩ := List.findIdx?_eq_some_iff_getElem.mp h
  rw [isForeign_iff] at hforeign
  have hmem := List.getElem_mem hi
  constructor
  · refine fun _ => ⟨t.take i, t[i], t.drop (i + 1), ?_, ?_, hforeign, fun a ha => ?_⟩
    · rw [List.getElem_cons_drop, List.take_append_drop]
    · rw [List.length_take, Nat.min_eq_left (Nat.le_of_lt hi)]
    · obtain ⟨j, hj, rfl⟩ := List.mem_take_iff_getElem.mp ha
      have hascii := hfront j (by omega)
      rw [isForeign_iff] at hascii
      omega
  · intro hascii
    exact absurd (hascii _ hmem) (Nat.not_lt.mpr hforeign)
  · refine iff_of_false (Nat.ne_of_lt hi) fun hstops => ?_
    exact absurd ((viable_iff.mpr (Or.inr hstops)).ascii _ hmem) (Nat.not_lt.mpr hforeign)

theorem parseList_error {t : List Char} {f : Fault} (h : parseList t = .error f) :
    ∃ n, f = .hexDigit n ∧ FaultAt t n := by
  have hspells (b : Bytes) : ¬ Spells b t := fun hb => by
    cases h.symm.trans (parseList_ok_iff.mpr hb)
  unfold parseList at h
  cases hfind : t.findIdx? isForeign with
  | none =>
      rw [hfind] at h
      obtain ⟨n, rfl, hn⟩ := scan_error h
      rw [Nat.zero_add]
      refine ⟨n, rfl, faultAt_of_ascii (fun c hc => Nat.lt_of_not_le fun hforeign => ?_) hspells hn⟩
      have hascii := List.findIdx?_eq_none_iff.mp hfind c hc
      rw [(isForeign_iff c).mpr hforeign] at hascii
      cases hascii
  | some i =>
      rw [hfind] at h
      exact ⟨i, (Except.error.inj h).symm, faultAt_of_foreign hfind⟩

/-! ## The mark -/

theorem dropMarkList_cases (t : List Char) :
    t = dropMarkList t ∨ t = '0' :: 'x' :: dropMarkList t := by
  unfold dropMarkList
  split
  · exact Or.inr rfl
  · exact Or.inl rfl

/-- The mark is no spelling. -/
theorem dropMarkList_of_spells {b : Bytes} {t : List Char} (h : Spells b t) :
    dropMarkList t = t := by
  have hzero : '0' ∉ blanks := by decide
  have hletter : value? 'x' = none := by decide
  obtain ht | ht := dropMarkList_cases t
  · exact ht.symm
  · rw [ht] at h
    obtain hblank | ⟨_, n, d, _, _, hn, hbehind⟩ := h.head
    · exact absurd hblank hzero
    · obtain ⟨rfl, _⟩ := List.cons.inj hbehind
      cases (value?_eq_some_iff.mpr hn).symm.trans hletter

/-- The texts that are read are the spellings, alone or behind the mark. -/
theorem parse_ok_iff {text : String} {b : Bytes} :
    parse text = .ok b ↔
      ∃ t, Spells b t ∧ (text = String.ofList t ∨ text = "0x" ++ String.ofList t) := by
  constructor
  · intro h
    refine ⟨dropMarkList text.toList, parseList_ok_iff.mp h, ?_⟩
    obtain ht | ht := dropMarkList_cases text.toList
    · exact Or.inl (by rw [← ht, String.ofList_toList])
    · refine Or.inr (String.toList_inj.mp ?_)
      simp only [String.toList_append, String.toList_ofList]
      exact ht
  · rintro ⟨t, h, rfl | rfl⟩
    · unfold parse
      rw [String.toList_ofList, dropMarkList_of_spells h]
      exact parseList_ok_iff.mpr h
    · unfold parse
      simp only [String.toList_append, String.toList_ofList]
      exact parseList_ok_iff.mpr h

theorem parse_marked (b : Bytes) : parse (marked b) = .ok b :=
  parse_ok_iff.mpr ⟨encodeList b, spells_encodeList b, Or.inr rfl⟩

/-! ## Digests -/

theorem parseDigest_ok_iff (t : String) (d : Digest) :
    parseDigest t = .ok d ↔ parse t = .ok d.bytes := by
  unfold parseDigest
  cases parse t with
  | error f => simp
  | ok b =>
      simp only [Digest.ofBytes, Except.ok.injEq, ← Digest.ofBytes?_eq_some]
      cases Digest.ofBytes? b <;> simp

theorem parseDigest_of_error {t : String} {f : Fault} (h : parse t = .error f) :
    parseDigest t = .error f := by
  simp only [parseDigest, h]

theorem parseDigest_of_length_ne {t : String} {b : Bytes} (h : parse t = .ok b)
    (hsize : b.length ≠ 32) : parseDigest t = .error (.digestSize b.length) := by
  simp only [parseDigest, h, Digest.ofBytes, Digest.ofBytes?_eq_none.mpr hsize]

/-- A text gives no digest for its digits, or for its size. -/
theorem parseDigest_error {t : String} {f : Fault} (h : parseDigest t = .error f) :
    parse t = .error f ∨ ∃ b, parse t = .ok b ∧ b.length ≠ 32 ∧ f = .digestSize b.length := by
  cases hparse : parse t with
  | error f' =>
      have hfault := Except.error.inj ((parseDigest_of_error hparse).symm.trans h)
      exact Or.inl (congrArg _ hfault)
  | ok b =>
      have hsize : b.length ≠ 32 := fun hsize => by
        cases h.symm.trans ((parseDigest_ok_iff t ⟨b, hsize⟩).mpr hparse)
      have hfault := Except.error.inj ((parseDigest_of_length_ne hparse hsize).symm.trans h)
      exact Or.inr ⟨b, rfl, hsize, hfault.symm⟩

/-- **The language of hexadecimal texts.** The texts that are read as given bytes are their
spellings, alone or behind one mark; the written form of the bytes is one of them. Any other text
is told a position behind the mark: that of the first character outside ASCII, if there is one, or
else the length of the longest beginning that some spelling goes on with, which is the whole text
exactly if the text stops inside a byte. A digest is read where 32 bytes are; otherwise the fault is
that of the bytes, or tells their number. -/
theorem hex_language (text : String) :
    (∀ b, parse text = .ok b ↔
      ∃ t, Spells b t ∧ (text = String.ofList t ∨ text = "0x" ++ String.ofList t)) ∧
    (∀ b, parse (marked b) = .ok b) ∧
    (∀ f, parse text = .error f → ∃ n, f = .hexDigit n ∧ FaultAt (dropMarkList text.toList) n) ∧
    (∀ b, (∃ d : Digest, parseDigest text = .ok d ∧ d.bytes = b) ↔
      parse text = .ok b ∧ b.length = 32) ∧
    (∀ f, parse text = .error f → parseDigest text = .error f) ∧
    ∀ b, parse text = .ok b → b.length ≠ 32 → parseDigest text = .error (.digestSize b.length) := by
  refine ⟨fun b => parse_ok_iff, parse_marked, fun f h => parseList_error h, fun b => ?_,
    fun f h => parseDigest_of_error h, fun b h hsize => parseDigest_of_length_ne h hsize⟩
  constructor
  · rintro ⟨d, hd, rfl⟩
    exact ⟨(parseDigest_ok_iff text d).mp hd, d.size_eq⟩
  · rintro ⟨h, hsize⟩
    exact ⟨⟨b, hsize⟩, (parseDigest_ok_iff text ⟨b, hsize⟩).mpr h, rfl⟩

/-- The text `0x1a B2` is read. `0x1A 2` stops inside a byte, and is told its length behind the
mark. In `x1é` the character outside ASCII wins over the one in front. -/
theorem hex_language_stops :
    parse "0x1a B2" = .ok [0x1a, 0xb2] ∧
      (parse "0x1A 2" = .error (.hexDigit 4) ∧ StopsInByte "1A 2".toList) ∧
      parse "x1é" = .error (.hexDigit 2) ∧ parseDigest "x1é" = .error (.hexDigit 2) := by
  have hspelled : Spells [0x1a, 0xb2] "1a B2".toList := by
    refine .byte (c := '1') (d := 'a') ?_ ?_ (.blank ?_ (.byte (c := 'B') (d := '2') ?_ ?_ .nil))
    all_goals decide
  have hstops : parse "0x1A 2" = .error (.hexDigit 4) := by decide +kernel
  have hforeign : parse "x1é" = .error (.hexDigit 2) := by decide +kernel
  obtain ⟨haccepts, _⟩ := hex_language "0x1a B2"
  obtain ⟨_, _, hposition, _⟩ := hex_language "0x1A 2"
  obtain ⟨_, _, _, _, hdigest, _⟩ := hex_language "x1é"
  obtain ⟨n, hn, hfault⟩ := hposition _ hstops
  obtain rfl : 4 = n := Fault.hexDigit.inj hn
  have hinside : StopsInByte "1A 2".toList := hfault.at_end.mp (by decide)
  exact ⟨(haccepts _).mpr ⟨_, hspelled, Or.inr (by decide)⟩, ⟨hstops, hinside⟩, hforeign,
    hdigest _ hforeign⟩

end Patricia.Hex
