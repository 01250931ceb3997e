import Mathlib.Data.List.Nodup
import Mathlib.Data.List.Range
import Mathlib.Algebra.Ring.Nat

namespace LaTTe.Data

/-! One pass of a counting sort.  Arrays are functions of the index. -/

def setEntry {α : Type} (array : Nat → α) (index : Nat) (value : α) : Nat → α :=
  fun other => if other = index then value else array other

def countKeys (key : Nat → Nat) (items : List Nat) : Nat → Nat :=
  items.foldl (fun counts item => setEntry counts (key item) (counts (key item) + 1))
    (fun _ => 0)

/-- Turn the counts below `radix` into the position of the first item of each
key; the second result is the position behind the last one. -/
def keyPositions (counts : Nat → Nat) (radix : Nat) : (Nat → Nat) × Nat :=
  (List.range radix).foldl
    (fun state j => (setEntry state.1 j state.2, state.2 + state.1 j)) (counts, 0)

def placeItems (key : Nat → Nat) (items : List Nat) (counts dump : Nat → Nat) :
    (Nat → Nat) × (Nat → Nat) :=
  items.foldl
    (fun state item =>
      (setEntry state.1 (key item) (state.1 (key item) + 1),
        setEntry state.2 (state.1 (key item)) item)) (counts, dump)

def countingPass (radix : Nat) (key : Nat → Nat) (items : List Nat)
    (dump : Nat → Nat) : List Nat :=
  let counts := (keyPositions (countKeys key items) radix).1
  (List.range items.length).map (placeItems key items counts dump).2

section

variable {key : Nat → Nat} {items : List Nat} {radix : Nat}

def keyGroup (key : Nat → Nat) (items : List Nat) (digit : Nat) : List Nat :=
  items.filter fun item => key item = digit

def keyBase (key : Nat → Nat) (items : List Nat) (digit : Nat) : Nat :=
  ((List.range digit).map fun d => (keyGroup key items d).length).sum

theorem keyBase_succ (digit : Nat) :
    keyBase key items (digit + 1) =
      keyBase key items digit + (keyGroup key items digit).length := by
  rw [keyBase, List.range_succ, List.map_append, List.sum_append]
  simp [keyBase]

theorem keyBase_mono (key : Nat → Nat) (items : List Nat) {small large : Nat}
    (le : small ≤ large) :
    keyBase key items small ≤ keyBase key items large := by
  induction large with
  | zero =>
      obtain rfl := Nat.le_zero.mp le
      exact Nat.le_refl _
  | succ large ih =>
      rw [keyBase_succ]
      rcases Nat.lt_or_eq_of_le le with smaller | rfl
      · exact Nat.le_trans (ih (by omega)) (Nat.le_add_right _ _)
      · rw [keyBase_succ]

theorem keyBase_cons (item : Nat) (rest : List Nat) (digit : Nat) :
    keyBase key (item :: rest) digit =
      keyBase key rest digit + if key item < digit then 1 else 0 := by
  induction digit with
  | zero => simp [keyBase]
  | succ digit ih =>
      rw [keyBase_succ, keyBase_succ, ih, keyGroup, keyGroup, List.filter_cons]
      split <;> split <;> split <;> simp_all <;> omega

theorem keyBase_length (small : ∀ item ∈ items, key item < radix) :
    keyBase key items radix = items.length := by
  induction items with
  | nil => simp [keyBase, keyGroup]
  | cons item rest ih =>
      rw [keyBase_cons, if_pos (small item (by simp)),
        ih (fun other member => small other (by simp [member])), List.length_cons]

private theorem countKeys_append (key : Nat → Nat) (left right : List Nat) (digit : Nat) :
    right.foldl (fun counts item =>
        setEntry counts (key item) (counts (key item) + 1)) (countKeys key left) digit =
      countKeys key left digit + (keyGroup key right digit).length := by
  induction right generalizing left with
  | nil => simp [keyGroup]
  | cons item rest ih =>
      have step : setEntry (countKeys key left) (key item)
          (countKeys key left (key item) + 1) = countKeys key (left ++ [item]) := by
        simp [countKeys]
      rw [List.foldl_cons, step, ih]
      rw [← step, setEntry, keyGroup, keyGroup, List.filter_cons]
      split
      · rename_i same
        simp [same]
        omega
      · rename_i different
        simp [Ne.symm different]

theorem countKeys_eq (digit : Nat) :
    countKeys key items digit = (keyGroup key items digit).length := by
  have counted := countKeys_append key [] items digit
  simpa [countKeys] using counted

theorem keyPositions_eq (digit : Nat) :
    (keyPositions (countKeys key items) radix).1 digit =
        (if digit < radix then keyBase key items digit
          else countKeys key items digit) ∧
      (keyPositions (countKeys key items) radix).2 = keyBase key items radix := by
  induction radix generalizing digit with
  | zero => simp [keyPositions, keyBase]
  | succ radix ih =>
      have unfolded : keyPositions (countKeys key items) (radix + 1) =
          (setEntry (keyPositions (countKeys key items) radix).1 radix
              (keyPositions (countKeys key items) radix).2,
            (keyPositions (countKeys key items) radix).2 +
              (keyPositions (countKeys key items) radix).1 radix) := by
        simp [keyPositions, List.range_succ]
      rw [unfolded, (ih digit).2]
      constructor
      · simp only [setEntry, (ih digit).1]
        split
        · rename_i same
          rw [if_pos (by omega), same]
        · split <;> split <;> first | rfl | omega
      · simp only [(ih radix).1, Nat.lt_irrefl, if_false, countKeys_eq, keyBase_succ]

private theorem keyBase_apart {first second k j : Nat} (lt : first < second)
    (inFirst : k < (keyGroup key items first).length) :
    keyBase key items first + k ≠ keyBase key items second + j := by
  have := keyBase_mono key items (Nat.succ_le_of_lt lt)
  rw [Nat.succ_eq_add_one, keyBase_succ] at this
  omega

structure Placed (key : Nat → Nat) (items done : List Nat) (radix : Nat)
    (state : (Nat → Nat) × (Nat → Nat)) : Prop where
  counts : ∀ digit < radix, state.1 digit =
    keyBase key items digit + (keyGroup key done digit).length
  entries : ∀ digit < radix, ∀ k item, (keyGroup key done digit)[k]? = some item →
    state.2 (keyBase key items digit + k) = item

theorem Placed.step {done rest : List Nat} {item : Nat}
    {state : (Nat → Nat) × (Nat → Nat)} (small : key item < radix)
    (whole : items = done ++ item :: rest) (placed : Placed key items done radix state) :
    Placed key items (done ++ [item]) radix
      (setEntry state.1 (key item) (state.1 (key item) + 1),
        setEntry state.2 (state.1 (key item)) item) := by
  have group : ∀ digit, keyGroup key (done ++ [item]) digit =
      keyGroup key done digit ++ if key item = digit then [item] else [] := by
    intro digit
    rw [keyGroup, List.filter_append, keyGroup]
    congr 1
    split <;> simp_all
  have fits : ∀ digit, (keyGroup key done digit).length ≤
      (keyGroup key items digit).length := by
    intro digit
    rw [whole, keyGroup, keyGroup, List.filter_append, List.length_append]
    omega
  have fitsHere : (keyGroup key done (key item)).length <
      (keyGroup key items (key item)).length := by
    rw [whole, keyGroup, keyGroup, List.filter_append, List.filter_cons,
      List.length_append]
    simp
  constructor
  · intro digit below
    rw [group]
    simp only [setEntry]
    split
    · rename_i same
      rw [same, placed.counts _ small]
      simp
      omega
    · rename_i different
      rw [placed.counts digit below, if_neg (Ne.symm different)]
      simp
  · intro digit below k other found
    rw [group, List.getElem?_append] at found
    simp only [setEntry, placed.counts _ small]
    split at found
    · rename_i inOld
      rw [if_neg, placed.entries digit below k other found]
      rcases Nat.lt_trichotomy digit (key item) with lt | same | gt
      · exact keyBase_apart lt (Nat.lt_of_lt_of_le inOld (fits digit))
      · rw [same] at inOld ⊢
        omega
      · exact Ne.symm (keyBase_apart gt fitsHere)
    · split at found
      · rename_i notOld same
        cases index : k - (keyGroup key done digit).length with
        | zero =>
            rw [index] at found
            have item_eq : item = other := by simpa using found
            rw [same, if_pos, item_eq]
            rw [← same] at notOld index ⊢
            omega
        | succ more =>
            rw [index] at found
            simp at found
      · simp at found

private theorem placeItems_placed {done rest : List Nat}
    (small : ∀ item ∈ items, key item < radix)
    {state : (Nat → Nat) × (Nat → Nat)}
    (whole : items = done ++ rest) (placed : Placed key items done radix state) :
    Placed key items items radix (placeItems key rest state.1 state.2) := by
  induction rest generalizing done state with
  | nil =>
      rw [List.append_nil] at whole
      rw [← whole] at placed
      exact placed
  | cons item rest ih =>
      have step := placed.step (small item (by simp [whole])) whole
      have rest := ih (by simp [whole]) step
      simpa [placeItems] using rest

theorem Placed.initial (dump : Nat → Nat) :
    Placed key items [] radix ((keyPositions (countKeys key items) radix).1, dump) := by
  constructor
  · intro digit below
    rw [(keyPositions_eq digit).1, if_pos below]
    simp [keyGroup]
  · intro digit _ k item found
    simp [keyGroup] at found

theorem Placed.position_lt {done rest : List Nat} {item : Nat}
    {state : (Nat → Nat) × (Nat → Nat)} (small : ∀ item ∈ items, key item < radix)
    (whole : items = done ++ item :: rest) (placed : Placed key items done radix state) :
    state.1 (key item) < items.length := by
  have below := small item (by simp [whole])
  have group : (keyGroup key done (key item)).length <
      (keyGroup key items (key item)).length := by
    rw [whole, keyGroup, keyGroup, List.filter_append, List.filter_cons,
      List.length_append]
    simp
  have within := keyBase_mono key items (Nat.succ_le_of_lt below)
  rw [Nat.succ_eq_add_one, keyBase_succ, keyBase_length small] at within
  rw [placed.counts _ below]
  omega

theorem exists_keyBase_add {position : Nat} (below : position < keyBase key items radix) :
    ∃ digit < radix, ∃ k < (keyGroup key items digit).length,
      position = keyBase key items digit + k := by
  induction radix with
  | zero => simp [keyBase] at below
  | succ radix ih =>
      by_cases before : position < keyBase key items radix
      · obtain ⟨digit, smaller, found⟩ := ih before
        exact ⟨digit, Nat.lt_succ_of_lt smaller, found⟩
      · rw [keyBase_succ] at below
        exact ⟨radix, Nat.lt_succ_self radix, position - keyBase key items radix,
          by omega, by omega⟩

theorem Placed.grouped {state : (Nat → Nat) × (Nat → Nat)}
    (small : ∀ item ∈ items, key item < radix)
    (placed : Placed key items items radix state) :
    (List.range items.length).map state.2 =
      (List.range radix).flatMap (keyGroup key items) := by
  have groups : ∀ digit ≤ radix,
      (List.range (keyBase key items digit)).map state.2 =
        (List.range digit).flatMap (keyGroup key items) := by
    intro digit
    induction digit with
    | zero => simp [keyBase]
    | succ digit ih =>
        intro below
        rw [keyBase_succ, List.range_add, List.map_append, ih (by omega),
          List.range_succ, List.flatMap_append]
        congr 1
        apply List.ext_getElem?
        intro k
        rw [List.flatMap_singleton, List.map_map]
        cases found : (keyGroup key items digit)[k]? with
        | none =>
            rw [List.getElem?_eq_none_iff] at found ⊢
            simpa using found
        | some item =>
            obtain ⟨inRange, _⟩ := List.getElem?_eq_some_iff.mp found
            rw [List.getElem?_map, List.getElem?_range inRange]
            simp [placed.entries digit (by omega) k item found]
  rw [← keyBase_length small, ← groups radix (Nat.le_refl _)]

theorem countingPass_eq (small : ∀ item ∈ items, key item < radix) (dump : Nat → Nat) :
    countingPass radix key items dump =
      (List.range radix).flatMap (keyGroup key items) :=
  (placeItems_placed small (List.nil_append items).symm (.initial dump)).grouped small

private theorem keyGroups_perm (bound : Nat) :
    ((List.range bound).flatMap (keyGroup key items)).Perm
      (items.filter fun item => key item < bound) := by
  induction bound with
  | zero => simp
  | succ bound ih =>
      have parts := List.filter_append_perm (fun item => decide (key item < bound))
        (items.filter fun item => key item < bound + 1)
      rw [List.filter_filter, List.filter_filter] at parts
      have before : (items.filter fun item =>
          decide (key item < bound) && decide (key item < bound + 1)) =
          items.filter fun item => key item < bound := by
        apply List.filter_congr
        intro item _
        rw [Bool.eq_iff_iff]
        simp
        omega
      have last : (items.filter fun item =>
          !decide (key item < bound) && decide (key item < bound + 1)) =
          keyGroup key items bound := by
        apply List.filter_congr
        intro item _
        rw [Bool.eq_iff_iff]
        simp
        omega
      rw [before, last] at parts
      rw [List.range_succ, List.flatMap_append, List.flatMap_singleton]
      exact (ih.append_right _).trans parts

theorem countingPass_perm (small : ∀ item ∈ items, key item < radix)
    (dump : Nat → Nat) : (countingPass radix key items dump).Perm items := by
  have all : (items.filter fun item => key item < radix) = items :=
    List.filter_eq_self.mpr fun item member => decide_eq_true (small item member)
  have groups := @keyGroups_perm key items radix
  rw [all] at groups
  rw [countingPass_eq small]
  exact groups

theorem countingPass_sorted (rank rank' : Nat → Nat)
    (small : ∀ item ∈ items, key item < radix) (dump : Nat → Nat)
    (sorted : items.Pairwise fun a b => rank a ≤ rank b)
    (lower : ∀ a b, key a < key b → rank' a ≤ rank' b)
    (same : ∀ a b, key a = key b → rank a ≤ rank b → rank' a ≤ rank' b) :
    (countingPass radix key items dump).Pairwise fun a b => rank' a ≤ rank' b := by
  rw [countingPass_eq small, List.pairwise_flatMap]
  constructor
  · intro digit _
    apply (sorted.filter _).imp_of_mem
    intro a b ha hb le
    simp only [List.mem_filter, decide_eq_true_eq] at ha hb
    exact same a b (ha.2.trans hb.2.symm) le
  · apply List.pairwise_lt_range.imp
    intro first second lt a ha b hb
    simp only [keyGroup, List.mem_filter, decide_eq_true_eq] at ha hb
    exact lower a b (by omega)

end

end LaTTe.Data
