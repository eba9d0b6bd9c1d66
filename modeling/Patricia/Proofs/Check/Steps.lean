import Mathlib.Algebra.BigOperators.Ring.Finset
import Patricia.Proofs.Check.FirstFault

/-
  The steps that a check tells.

  A check of a node of which nothing is known tells one event for each step down. `steps` gives
  the steps between two entries from the entries alone, and `allSteps` runs through them depth
  first: below each slot of a branch that holds the digest of the next entry, everything below is
  told again. A check that succeeds tells `allSteps` (`descent_events_of_ok`), so the number of its
  events is a sum of products of widths (`length_allSteps`). A check that fails stops in the first
  slot of every branch, and tells one step for each level that it has left
  (`FirstFault.events`); only a branch that refers to no next entry is never left.

  `verify_unknown_events` puts these together. Not claimed: any bound on the number of events. A
  branch has seventeen slots, and each of them may hold one digest.
-/

namespace Patricia

/-- The steps from an entry to the next one: one from an extension, and one from each slot of a
branch that holds the digest of the next entry, lowest first. -/
def steps (e next : Bytes) : List Event :=
  match Content.decode e with
  | .ok (.extension _ _) => [.descendExtension (keccak256 e)]
  | .ok (.branch slots) =>
    (slotsHolding (keccak256 next) 0 slots).map (Event.descendBranch (keccak256 e))
  | _ => []

/-- The steps of a proof, depth first: behind each step, those of the entries below. -/
def allSteps : List Bytes → List Event
  | [] => []
  | [_] => []
  | e :: next :: rest => (steps e next).flatMap (fun step => step :: allSteps (next :: rest))

/-- The number of ways from an entry to the next one. -/
def width (e next : Bytes) : Nat :=
  match Content.decode e with
  | .ok (.extension _ _) => 1
  | .ok (.branch slots) => slots.count (some (keccak256 next))
  | _ => 0

/-- The number of ways from entry `i` of a proof to the entry behind it. -/
def widthAt (proof : List Bytes) (i : Nat) : Nat :=
  match proof[i]?, proof[i + 1]? with
  | some e, some next => width e next
  | _, _ => 0

/-- The step from entry `i` of a proof that is taken first. -/
def firstStepAt (proof : List Bytes) (i : Nat) : Option Event :=
  match proof[i]?, proof[i + 1]? with
  | some e, some next => (steps e next).head?
  | _, _ => none

/-- Entry `i` of a proof stands behind a branch. -/
def behindBranch (proof : List Bytes) : Nat → Bool
  | 0 => false
  | i + 1 =>
    match proof[i]?.map Content.decode with
    | some (.ok (.branch _)) => true
    | _ => false

/-- The number of levels that a check leaves before entry `i` fails a check. The link of an entry
behind a branch is looked up before the branch is left. -/
def levelsLeft (proof : List Bytes) (i : Nat) (check : EntryCheck) : Nat :=
  if check = .link ∧ behindBranch proof i = true then i - 1 else i

/-! ## One level -/

section Entry

variable {e : Bytes} (next : Bytes)

theorem steps_of_extension {path : Bytes} {child : Digest}
    (hdecode : Content.decode e = .ok (.extension path child)) :
    steps e next = [.descendExtension (keccak256 e)] := by
  rw [steps, hdecode]

theorem steps_of_branch {slots : List (Option Digest)}
    (hdecode : Content.decode e = .ok (.branch slots)) :
    steps e next =
      (slotsHolding (keccak256 next) 0 slots).map (Event.descendBranch (keccak256 e)) := by
  rw [steps, hdecode]

end Entry

theorem length_slotsHolding (next : Digest) (slots : List (Option Digest)) (i : Nat) :
    (slotsHolding next i slots).length = slots.count (some next) := by
  induction slots generalizing i with
  | nil => rfl
  | cons slot rest ih =>
      cases slot with
      | none =>
          rw [slotsHolding_cons_none, ih, List.count_cons_of_ne (by simp)]
      | some d =>
          by_cases hd : d = next
          · rw [hd, slotsHolding_cons_eq, List.length_cons, ih, List.count_cons_self]
          · rw [slotsHolding_cons_ne next d hd, ih, List.count_cons_of_ne (by simpa using hd)]

theorem length_steps (e next : Bytes) : (steps e next).length = width e next := by
  unfold steps width
  split
  · rfl
  · rw [List.length_map, length_slotsHolding]
  · rfl

/-- Where the checks below pass, a branch tells each of its slots with all that is told below. -/
theorem fanOut_events_of_ok (branch : Digest) (below : Visit Unit) (hok : below.verdict = .ok ())
    (slots : List Nat) :
    (fanOut branch below slots).events =
      slots.flatMap (fun i => Event.descendBranch branch i :: below.events) := by
  induction slots with
  | nil => rfl
  | cons i rest ih =>
      rw [List.flatMap_cons, ← ih, fanOut]
      simp only [Visit.andThen, Visit.told, hok]

/-- Where they fail, a branch tells its first slot and nothing behind it. -/
theorem fanOut_events_of_error (branch : Digest) (below : Visit Unit) {f : Fault}
    (herror : below.verdict = .error f) (i : Nat) (rest : List Nat) :
    (fanOut branch below (i :: rest)).events = .descendBranch branch i :: below.events := by
  rw [fanOut]
  simp only [Visit.andThen, Visit.told, herror]

/-! ## Checks that succeed -/

theorem descent_events_of_ok (key value : Bytes) (proof : List Bytes) (d : Digest)
    (hok : (descent key value proof d).verdict = .ok ()) :
    (descent key value proof d).events = allSteps proof := by
  induction proof generalizing d with
  | nil => rfl
  | cons e rest ih =>
      cases rest with
      | nil =>
          obtain ⟨c, hopen, hagree⟩ := (descent_singleton_ok key value e d).mp hok
          rw [descent_singleton key value e d hopen hagree]
          rfl
      | cons next rest =>
          obtain ⟨hd, hlink, hrest⟩ := (descent_cons_cons_ok key value e next rest d).mp hok
          have hbelow := ih (keccak256 next) hrest
          rw [allSteps, ← hbelow]
          obtain ⟨path, hc⟩ | ⟨slots, hc, hmem⟩ := hlink
          · have hopen : openEntry d e = .ok _ := openEntry_eq_ok.mpr ⟨hd, hc⟩
            rw [descent_cons_cons key value e rest d next hopen rfl, steps_of_extension next hc, hd]
            exact (List.append_nil _).symm
          · have hopen : openEntry d e = .ok _ := openEntry_eq_ok.mpr ⟨hd, hc⟩
            rw [descent_cons_cons key value e rest d next hopen rfl, steps_of_branch next hc, hd,
              Content.follow, if_pos hmem, fanOut_events_of_ok d _ hrest, List.flatMap_map]

/-! ### Their number -/

theorem length_allSteps_cons_cons (e next : Bytes) (rest : List Bytes) :
    (allSteps (e :: next :: rest)).length =
      width e next * ((allSteps (next :: rest)).length + 1) := by
  rw [allSteps, List.length_flatMap]
  simp only [List.length_cons]
  rw [List.map_const', List.sum_replicate_nat, length_steps]

/-- The number of steps is the number of ways down to each entry behind the first, in all. -/
theorem length_allSteps (proof : List Bytes) :
    (allSteps proof).length =
      ∑ i ∈ Finset.range (proof.length - 1), ∏ j ∈ Finset.range (i + 1), widthAt proof j := by
  induction proof with
  | nil => rfl
  | cons e rest ih =>
      cases rest with
      | nil => rfl
      | cons next rest =>
          -- Every way down goes over the first step, which is a factor of each product.
          have hfirst : widthAt (e :: next :: rest) 0 = width e next := rfl
          have hlater : ∀ j, widthAt (e :: next :: rest) (j + 1) = widthAt (next :: rest) j :=
            fun j => rfl
          have hprod : ∀ i, ∏ j ∈ Finset.range (i + 1), widthAt (e :: next :: rest) j =
              width e next * ∏ j ∈ Finset.range i, widthAt (next :: rest) j := by
            intro i
            rw [Finset.prod_range_succ', hfirst, Nat.mul_comm]
            simp only [hlater]
          have hcount : (e :: next :: rest).length - 1 = ((next :: rest).length - 1) + 1 := by
            simp
          simp only [hprod]
          rw [length_allSteps_cons_cons, ih, hcount, ← Finset.mul_sum, Finset.sum_range_succ',
            Finset.prod_range_zero]

/-! ## Checks that fail -/

theorem levelsLeft_zero (proof : List Bytes) (check : EntryCheck) :
    levelsLeft proof 0 check = 0 :=
  if_neg (fun h => Bool.false_ne_true h.2)

theorem firstStepAt_zero (e next : Bytes) (rest : List Bytes) :
    firstStepAt (e :: next :: rest) 0 = (steps e next).head? := rfl

theorem map_firstStepAt_succ (e next : Bytes) (rest : List Bytes) (n : Nat) :
    (List.range (n + 1)).map (firstStepAt (e :: next :: rest)) =
      (steps e next).head? :: (List.range n).map (firstStepAt (next :: rest)) := by
  rw [List.range_succ_eq_map, List.map_cons, List.map_map, firstStepAt_zero]
  rfl

/-- A fault behind the first entry is a fault of the rest, below any digest that gives the rest the
same link. -/
theorem FirstFault.tail {d : Digest} (d' : Digest) {key value e : Bytes} {rest : List Bytes}
    {i : Nat} {check : EntryCheck} {f : Fault}
    (hlink : linkFault ⟨d, key, value, e :: rest⟩ 1 = linkFault ⟨d', key, value, rest⟩ 0)
    (h : FirstFault ⟨d, key, value, e :: rest⟩ (i + 1) check f) :
    FirstFault ⟨d', key, value, rest⟩ i check f := by
  have hsucc := faultAt_succ d d' key value e rest hlink
  refine ⟨?_, ?_, ?_⟩
  · intro j hj other
    rw [← hsucc]
    exact h.before (j + 1) (by omega) other
  · intro other hrank
    rw [← hsucc]
    exact h.earlier other hrank
  · rw [← hsucc]
    exact h.fails

section Follows

variable {d : Digest} {key value e : Bytes} {rest : List Bytes} {i : Nat} {check : EntryCheck}
  {f : Fault}

/-- An entry with a fault behind it passes all its own checks, and is followed. -/
theorem FirstFault.follows (h : FirstFault ⟨d, key, value, e :: rest⟩ (i + 1) check f) :
    ∃ c next others, rest = next :: others ∧ openEntry d e = .ok c ∧
      c.agree key value = .ok () ∧ ∀ k v, c ≠ .leaf k v := by
  -- The entry has no fault of its own, which would be an earlier one.
  have hpasses : ∀ other g, ¬ FirstFault ⟨d, key, value, e :: rest⟩ 0 other g :=
    fun other g hzero => absurd (h.index_le hzero) (Nat.not_succ_le_zero i)
  cases rest with
  | nil =>
      have hlt : i + 1 < 1 := h.lt_length
      omega
  | cons next others =>
      cases hopen : openEntry d e with
      | error g =>
          obtain ⟨other, hzero⟩ := firstFault_of_open d key value e (next :: others) g hopen
          exact absurd hzero (hpasses other g)
      | ok c =>
          cases hagree : c.agree key value with
          | error g =>
              obtain ⟨other, hzero⟩ :=
                firstFault_of_agree d key value e (next :: others) c g hopen hagree
              exact absurd hzero (hpasses other g)
          | ok _ =>
              refine ⟨c, next, others, rfl, rfl, hagree, ?_⟩
              rintro k v rfl
              exact hpasses _ _ (firstFault_of_leaf d key value e next k v others hopen hagree)

end Follows

/-- Nothing is told of an entry that fails its own checks. -/
theorem FirstFault.descent_events_zero {d : Digest} {key value : Bytes} {proof : List Bytes}
    {check : EntryCheck} {f : Fault} (h : FirstFault ⟨d, key, value, proof⟩ 0 check f) :
    (descent key value proof d).events = [] := by
  cases proof with
  | nil => rfl
  | cons e rest =>
      cases hopen : openEntry d e with
      | error g =>
          rw [descent_of_open key value e rest d hopen]
          rfl
      | ok c =>
          cases hagree : c.agree key value with
          | error g =>
              rw [descent_of_agree key value e rest d hopen hagree]
              rfl
          | ok _ =>
              cases rest with
              | nil =>
                  rw [descent_singleton key value e d hopen hagree]
                  rfl
              | cons next rest =>
                  have hpass := faultAt_zero_of_agree d key value e (next :: rest) c hopen hagree
                    check
                  rw [descent_cons_cons key value e rest d next hopen hagree]
                  cases c with
                  | leaf k v => rfl
                  | extension path child =>
                      have hfails := h.fails
                      rw [hpass (by simp)] at hfails
                      cases hfails
                  | branch slots =>
                      have hfails := h.fails
                      rw [hpass (by simp)] at hfails
                      cases hfails

/-- With the first level, one level more is left, unless the entry behind it is no child of a
branch. -/
theorem levelsLeft_cons_cons (e next : Bytes) (rest : List Bytes) (i : Nat) (check : EntryCheck)
    (hlinked : i = 0 → check = .link → behindBranch (e :: next :: rest) 1 = false) :
    levelsLeft (e :: next :: rest) (i + 1) check = levelsLeft (next :: rest) i check + 1 := by
  cases i with
  | zero =>
      rw [levelsLeft_zero, levelsLeft, if_neg]
      rintro ⟨hcheck, hbehind⟩
      rw [hlinked rfl hcheck] at hbehind
      cases hbehind
  | succ i =>
      have hbehind : behindBranch (e :: next :: rest) (i + 2) =
          behindBranch (next :: rest) (i + 1) := rfl
      unfold levelsLeft
      rw [hbehind]
      split <;> rfl

/-- The first slot that a branch is left by is the first of its steps. -/
theorem head?_steps_of_branch {e next : Bytes} {slots : List (Option Digest)} {i : Nat}
    {later : List Nat} (hdecode : Content.decode e = .ok (.branch slots))
    (hslots : slotsHolding (keccak256 next) 0 slots = i :: later) :
    (steps e next).head? = some (.descendBranch (keccak256 e) i) := by
  rw [steps_of_branch next hdecode, hslots]
  rfl

/-- A check that fails tells the first step from each level that it has left. The induction is on
the index of the first fault. -/
theorem FirstFault.events {d : Digest} {key value : Bytes} {proof : List Bytes} {i : Nat}
    {check : EntryCheck} {f : Fault} (h : FirstFault ⟨d, key, value, proof⟩ i check f) :
    (descent key value proof d).events.map some =
      (List.range (levelsLeft proof i check)).map (firstStepAt proof) := by
  induction i generalizing d proof with
  | zero =>
      rw [h.descent_events_zero, levelsLeft_zero]
      rfl
  | succ i ih =>
      cases proof with
      | nil => exact absurd h.lt_length (Nat.not_lt_zero _)
      | cons e rest =>
          obtain ⟨c, next, rest, rfl, hopen, hagree, hleaf⟩ := h.follows
          obtain ⟨hd, hc⟩ := openEntry_eq_ok.mp hopen
          rw [descent_cons_cons key value e rest d next hopen hagree]
          cases c with
          | leaf k v => exact absurd rfl (hleaf k v)
          | extension path child =>
              have hrest := ih (h.tail child (by simp [linkFault, referenceFault, hc]))
              rw [levelsLeft_cons_cons e next rest i check (fun _ _ => by simp [behindBranch, hc]),
                map_firstStepAt_succ, ← hrest, steps_of_extension next hc, hd]
              rfl
          | branch slots =>
              by_cases hmem : some (keccak256 next) ∈ slots
              · have htail := h.tail (keccak256 next)
                  (by simp [linkFault, referenceFault, digestFault, hc, hmem])
                have hlinked : i = 0 → check = .link →
                    behindBranch (e :: next :: rest) 1 = false := by
                  rintro rfl rfl
                  have hfails := htail.fails
                  simp [EntryCheck.faultAt, linkFault, digestFault] at hfails
                cases hslots : slotsHolding (keccak256 next) 0 slots with
                | nil => exact absurd hslots (slotsHolding_ne_nil _ 0 slots hmem)
                | cons j later =>
                    rw [levelsLeft_cons_cons e next rest i check hlinked, map_firstStepAt_succ,
                      ← ih htail, head?_steps_of_branch hc hslots, Content.follow, if_pos hmem,
                      hslots, fanOut_events_of_error d _ htail.verdict, hd]
                    rfl
              · have hfirst := firstFault_of_noSuchChild d key value e next rest slots hopen hmem
                obtain rfl : i = 0 := by
                  have := h.index_le hfirst
                  omega
                obtain rfl := EntryCheck.rank_injective
                  (Nat.le_antisymm (h.rank_le hfirst) (hfirst.rank_le h))
                have hleft : levelsLeft (e :: next :: rest) 1 .link = 0 :=
                  if_pos ⟨rfl, by simp [behindBranch, hc]⟩
                rw [Content.follow, if_neg hmem, hleft]
                rfl

/-! ## What a check tells -/

/-- **A check tells every step down, or the first ones.** A check of a node of which nothing is
known tells nothing if there is no entry. If it succeeds, it tells the steps of the proof, depth
first; their number is the sum, over the entries behind the first, of the product of the widths
above them. If it fails at an entry, it tells one step for each level above, through the lowest
slot of each branch; the last of them is missing if the entry is no child of the branch before
it. -/
theorem verify_unknown_events (hashesKeys : Bool) (root : Digest) (key value : Bytes)
    (proof : List Bytes) :
    let v := (Node.unknown hashesKeys root).verify key value proof
    (proof = [] → v.events = []) ∧
      (v.verdict = .ok () → v.events = allSteps proof ∧
        v.events.length =
          ∑ i ∈ Finset.range (proof.length - 1), ∏ j ∈ Finset.range (i + 1), widthAt proof j) ∧
      (proof ≠ [] → v.verdict ≠ .ok () →
        ∃ i check f, FirstFault ⟨root, key, value, proof⟩ i check f ∧ v.verdict = .error f ∧
          v.events.length = levelsLeft proof i check ∧
          v.events.map some =
            (List.range (levelsLeft proof i check)).map (firstStepAt proof)) := by
  intro v
  obtain ⟨hevents, hverdict⟩ : v.events = (descent key value proof root).events ∧
      v.verdict = (descent key value proof root).verdict :=
    (Visit.outcome_eq_iff v _).mp (Node.verify_unknown_outcome key value hashesKeys proof root)
  rw [hevents, hverdict]
  refine ⟨?_, ?_, ?_⟩
  · rintro rfl
    rfl
  · intro hok
    have hsteps := descent_events_of_ok key value proof root hok
    exact ⟨hsteps, hsteps ▸ length_allSteps proof⟩
  · intro hne herror
    cases hv : (descent key value proof root).verdict with
    | ok _ => exact absurd hv herror
    | error f =>
        obtain ⟨i, check, hfirst⟩ := exists_firstFault key value proof hne root f hv
        have hlength := congrArg List.length hfirst.events
        rw [List.length_map, List.length_map, List.length_range] at hlength
        exact ⟨i, check, f, hfirst, rfl, hlength, hfirst.events⟩

/-- An entry of a branch with `extensionEntry` in the slots 0 and 1. -/
def fanEntry : Bytes :=
  [0xf8, 0x51, 0xa0] ++ (keccak256 extensionEntry).bytes ++ [0xa0] ++
    (keccak256 extensionEntry).bytes ++ List.replicate 15 0x80

/-- Under a branch with one extension in two slots, a check that succeeds tells the extension behind
each of them, and one that fails behind the first only. -/
theorem verify_unknown_events_two_slots :
    let root := Node.unknown true (keccak256 fanEntry)
    let proof := [fanEntry, extensionEntry, leafEntry]
    let right := root.verify [] [9] proof
    let wrong := root.verify [] [8] proof
    let first := Event.descendBranch (keccak256 fanEntry) 0
    let second := Event.descendBranch (keccak256 fanEntry) 1
    let below := Event.descendExtension (keccak256 extensionEntry)
    right.verdict = .ok () ∧ right.events = [first, below, second, below] ∧
      ∑ i ∈ Finset.range 2, ∏ j ∈ Finset.range (i + 1), widthAt proof j = 4 ∧
      proof ≠ [] ∧ wrong.verdict ≠ .ok () ∧ wrong.events = [first, below] ∧
      (∃ i check f, FirstFault ⟨keccak256 fanEntry, [], [8], proof⟩ i check f ∧
        levelsLeft proof i check = 2) ∧
      (root.verify [] [9] []).events = [] := by
  intro root proof right wrong first second below
  have hok : right.verdict = .ok () := by decide +kernel
  have herror : wrong.verdict ≠ .ok () := by decide +kernel
  have hne : proof ≠ [] := List.cons_ne_nil _ _
  have hsteps : allSteps proof = [first, below, second, below] := by decide +kernel
  have hwrong : wrong.events = [first, below] := by decide +kernel
  obtain ⟨_, hright, _⟩ := verify_unknown_events true (keccak256 fanEntry) [] [9] proof
  obtain ⟨_, _, hfails⟩ := verify_unknown_events true (keccak256 fanEntry) [] [8] proof
  obtain ⟨hnone, _, _⟩ := verify_unknown_events true (keccak256 fanEntry) [] [9] []
  obtain ⟨hevents, hlength⟩ := hright hok
  obtain ⟨i, check, f, hfirst, _, hleft, _⟩ := hfails hne herror
  rw [hsteps] at hevents
  have hsum := hlength.symm.trans (congrArg List.length hevents)
  have htwo := hleft.symm.trans (congrArg List.length hwrong)
  exact ⟨hok, hevents, hsum, hne, herror, hwrong, ⟨i, check, f, hfirst, htwo⟩, hnone rfl⟩

end Patricia
