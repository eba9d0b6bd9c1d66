import Patricia.Proofs.Path.Bare

/-
  Cutting bytes and packing nibbles.

  Cutting loses nothing: packing the halves of the bytes gives the bytes back. Packing puts a zero
  in front of an odd number of nibbles, and cutting shows it (`ofBytes_toBytes`): what comes back
  are the padded nibbles. So two lists are packed alike exactly if they are padded alike
  (`toBytes_eq_iff`), which two different lists are only if one is the other behind its zero
  (`padded_eq_iff`).

  Not claimed: anything about values above 15, which do not come back.
-/

namespace Patricia.Nibbles

/-- What is packed in pairs: the nibbles, behind a zero if their number is odd. -/
def padded (nibbles : Bytes) : Bytes :=
  if nibbles.length % 2 = 1 then 0 :: nibbles else nibbles

section Padded

variable {nibbles : Bytes}

theorem padded_of_even (h : nibbles.length % 2 = 0) : padded nibbles = nibbles :=
  if_neg (by omega)

theorem padded_of_odd (h : nibbles.length % 2 = 1) : padded nibbles = 0 :: nibbles := if_pos h

theorem length_padded (nibbles : Bytes) : (padded nibbles).length % 2 = 0 := by
  obtain h | h := Nat.mod_two_eq_zero_or_one nibbles.length
  · rw [padded_of_even h]
    exact h
  · rw [padded_of_odd h, List.length_cons]
    omega

theorem inRange_padded (h : InRange nibbles) : InRange (padded nibbles) := by
  unfold padded
  split
  · exact inRange_cons.mpr ⟨by decide, h⟩
  · exact h

/-- Nibbles are packed, and cutting shows them with the zero that was put in front. -/
theorem ofBytes_toBytes (h : InRange nibbles) :
    ∃ b, toBytes nibbles = .ok b ∧ ofBytes b = padded nibbles :=
  ofBytes_packPairs (padded nibbles) (inRange_padded h) (length_padded nibbles)

end Padded

section Alike

variable {n n' : Bytes}

theorem toBytes_eq_iff (h : InRange n) (h' : InRange n') :
    toBytes n = toBytes n' ↔ padded n = padded n' := by
  obtain ⟨b, hb, hcut⟩ := ofBytes_toBytes h
  obtain ⟨b', hb', hcut'⟩ := ofBytes_toBytes h'
  constructor
  · intro heq
    obtain rfl := Except.ok.inj (hb.symm.trans (heq.trans hb'))
    exact hcut.symm.trans hcut'
  · intro heq
    change packPairs (padded n) = packPairs (padded n')
    rw [heq]

/-- Lists are padded alike if they are the same, or if one is the other behind its zero. -/
theorem padded_eq_iff :
    padded n = padded n' ↔
      n = n' ∨ (n.length % 2 = 1 ∧ n' = 0 :: n) ∨ (n'.length % 2 = 1 ∧ n = 0 :: n') := by
  constructor
  · intro h
    obtain he | ho := Nat.mod_two_eq_zero_or_one n.length <;>
      obtain he' | ho' := Nat.mod_two_eq_zero_or_one n'.length
    · rw [padded_of_even he, padded_of_even he'] at h
      exact Or.inl h
    · rw [padded_of_even he, padded_of_odd ho'] at h
      exact Or.inr (Or.inr ⟨ho', h⟩)
    · rw [padded_of_odd ho, padded_of_even he'] at h
      exact Or.inr (Or.inl ⟨ho, h.symm⟩)
    · rw [padded_of_odd ho, padded_of_odd ho'] at h
      exact Or.inl (List.cons.inj h).2
  · rintro (rfl | ⟨ho, rfl⟩ | ⟨ho, rfl⟩)
    · rfl
    · rw [padded_of_odd ho, padded_of_even (by rw [List.length_cons]; omega)]
    · rw [padded_of_odd ho, padded_of_even (by rw [List.length_cons]; omega)]

end Alike

/-- **Packing loses only the padding.** Bytes are cut into twice as many nibbles, which pack into
these bytes. Nibbles pack into bytes that are cut into the same nibbles, behind a zero if their
number is odd. Two lists of nibbles pack into the same bytes exactly if they are equal, or one of
them is of odd length and the other is a zero in front of it. -/
theorem packing_loses_only_padding :
    (∀ b : Bytes, (ofBytes b).length = 2 * b.length ∧ (∀ x ∈ ofBytes b, x.toNat ≤ 15) ∧
      toBytes (ofBytes b) = .ok b) ∧
    (∀ n : Bytes, (∀ x ∈ n, x.toNat ≤ 15) → ∃ b, toBytes n = .ok b ∧
      (n.length % 2 = 0 → ofBytes b = n) ∧ (n.length % 2 = 1 → ofBytes b = 0 :: n)) ∧
    ∀ n n' : Bytes, (∀ x ∈ n, x.toNat ≤ 15) → (∀ x ∈ n', x.toNat ≤ 15) →
      (toBytes n = toBytes n' ↔
        n = n' ∨ (n.length % 2 = 1 ∧ n' = 0 :: n) ∨ (n'.length % 2 = 1 ∧ n = 0 :: n')) := by
  have hrange {n : Bytes} (h : ∀ x ∈ n, x.toNat ≤ 15) : InRange n :=
    fun x hx => Nat.lt_succ_of_le (h x hx)
  refine ⟨fun b => ⟨length_ofBytes b, ?_, toBytes_ofBytes b⟩, fun n h => ?_, fun n n' h h' => ?_⟩
  · exact fun x hx => Nat.le_of_lt_succ (inRange_ofBytes b x hx)
  · obtain ⟨b, hb, hcut⟩ := ofBytes_toBytes (hrange h)
    refine ⟨b, hb, fun heven => ?_, fun hodd => ?_⟩
    · rw [hcut, padded_of_even heven]
    · rw [hcut, padded_of_odd hodd]
  · rw [toBytes_eq_iff (hrange h) (hrange h'), padded_eq_iff]

/-- The nibbles `1 2 3` come back behind a zero, which packs into the same bytes. The nibbles
`0 1` and `1 0` are packed apart. -/
theorem packing_loses_only_padding_three :
    (∃ b, toBytes [1, 2, 3] = .ok b ∧ ofBytes b = [0, 1, 2, 3]) ∧
      toBytes [1, 2, 3] = toBytes [0, 1, 2, 3] ∧ toBytes [0, 1] ≠ toBytes [1, 0] := by
  obtain ⟨_, hcut, halike⟩ := packing_loses_only_padding
  obtain ⟨b, hb, _, hodd⟩ := hcut [1, 2, 3] (by decide +kernel)
  refine ⟨⟨b, hb, hodd rfl⟩, ?_, ?_⟩
  · rw [halike [1, 2, 3] [0, 1, 2, 3] (by decide +kernel) (by decide +kernel)]
    exact Or.inr (Or.inl ⟨rfl, rfl⟩)
  · rw [Ne, halike [0, 1] [1, 0] (by decide +kernel) (by decide +kernel)]
    decide

end Patricia.Nibbles
