import Mathlib.Data.BitVec
import Mathlib.Data.List.Range

namespace LaTTe.Strings

/-! Decoding of UTF-8 strings.  A string is the memory from its first byte up to a limit;
what is there and behind it is other memory. -/

abbrev Text := Nat → BitVec 8

/-- `(byte & 0xE0) == 0xC0`. -/
def LeadsTwo (byte : BitVec 8) : Prop :=
  byte &&& 0xE0#8 = 0xC0#8

/-- `(byte & 0xF0) == 0xE0`. -/
def LeadsThree (byte : BitVec 8) : Prop :=
  byte &&& 0xF0#8 = 0xE0#8

/-- `(byte & 0xC0) == 0x80`. -/
def Continues (byte : BitVec 8) : Prop :=
  byte &&& 0xC0#8 = 0x80#8

instance (byte : BitVec 8) : Decidable (LeadsTwo byte) :=
  inferInstanceAs (Decidable (_ = _))

instance (byte : BitVec 8) : Decidable (LeadsThree byte) :=
  inferInstanceAs (Decidable (_ = _))

instance (byte : BitVec 8) : Decidable (Continues byte) :=
  inferInstanceAs (Decidable (_ = _))

def twoBytes (first second : BitVec 8) : Nat :=
  ((first &&& 0x1F#8).toNat <<< 6) + (second &&& 0x3F#8).toNat

def threeBytes (first second third : BitVec 8) : Nat :=
  ((first &&& 0x1F#8).toNat <<< 12) + ((second &&& 0x3F#8).toNat <<< 6) +
    (third &&& 0x3F#8).toNat

/-- What a use of `UTF8_GET` comes to: the character or -1, where the pointer is left, and
what has been read. -/
structure Utf8Read where
  char : Int
  ptr : Nat
  reads : List Nat
  deriving DecidableEq, Repr

/-- The last test of `UTF8_GET`, with what has been read before. -/
def utf8GetThree (text : Text) (limit ptr : Nat) (reads : List Nat) : Utf8Read :=
  if LeadsThree (text ptr) then
    if ptr + 3 ≤ limit then
      if Continues (text (ptr + 1)) then
        if Continues (text (ptr + 2)) then
          ⟨threeBytes (text ptr) (text (ptr + 1)) (text (ptr + 2)), ptr + 3,
            reads ++ [ptr, ptr + 1, ptr + 2]⟩
        else
          ⟨-1, ptr + 4, reads ++ [ptr, ptr + 1, ptr + 2]⟩
      else
        ⟨-1, ptr + 4, reads ++ [ptr, ptr + 1]⟩
    else
      ⟨-1, ptr + 4, reads ++ [ptr]⟩
  else
    ⟨-1, ptr + 1, reads ++ [ptr]⟩

/-- `UTF8_GET`.  The pointer has been moved when the test for two bytes fails behind the
first of them. -/
def utf8Get (text : Text) (limit ptr : Nat) : Utf8Read :=
  if limit ≤ ptr then
    ⟨-1, ptr, []⟩
  else if text ptr < 128#8 then
    ⟨(text ptr).toNat, ptr + 1, [ptr]⟩
  else if LeadsTwo (text ptr) then
    if ptr + 2 ≤ limit then
      if Continues (text (ptr + 1)) then
        ⟨twoBytes (text ptr) (text (ptr + 1)), ptr + 2, [ptr, ptr + 1]⟩
      else
        utf8GetThree text limit (ptr + 2) [ptr, ptr + 1]
    else
      utf8GetThree text limit (ptr + 2) [ptr]
  else
    utf8GetThree text limit ptr [ptr]

/-- The loop of `strLengthUtf8`.  A round takes at least one byte. -/
def strLengthFrom (text : Text) (limit : Nat) : Nat → Nat → Int → Int
  | 0, _, length => length
  | fuel + 1, ptr, length =>
      if ptr < limit then
        let read := utf8Get text limit ptr
        if read.char < 0 then -1 else strLengthFrom text limit fuel read.ptr (length + 1)
      else
        length

def strLengthUtf8 (text : Text) (len : Nat) : Int :=
  strLengthFrom text len len 0 0

/-- The uses of `UTF8_GET` from a pointer up to the limit, whatever they result in. -/
def utf8GetAll (text : Text) (limit : Nat) : Nat → Nat → List Utf8Read
  | 0, _ => []
  | fuel + 1, ptr =>
      if ptr < limit then
        let read := utf8Get text limit ptr
        read :: utf8GetAll text limit fuel read.ptr
      else
        []

inductive Form (text : Text) (limit ptr : Nat) : Nat → Nat → Prop where
  | one (inside : ptr + 1 ≤ limit) (ascii : text ptr < 128#8) :
      Form text limit ptr 1 (text ptr).toNat
  | two (inside : ptr + 2 ≤ limit) (lead : LeadsTwo (text ptr))
      (second : Continues (text (ptr + 1))) :
      Form text limit ptr 2 (twoBytes (text ptr) (text (ptr + 1)))
  | three (inside : ptr + 3 ≤ limit) (lead : LeadsThree (text ptr))
      (second : Continues (text (ptr + 1))) (third : Continues (text (ptr + 2))) :
      Form text limit ptr 3 (threeBytes (text ptr) (text (ptr + 1)) (text (ptr + 2)))

inductive WellFormed (text : Text) (limit : Nat) : Nat → List Nat → Prop where
  | nil : WellFormed text limit limit []
  | cons {ptr width char : Nat} {chars : List Nat} (form : Form text limit ptr width char)
      (rest : WellFormed text limit (ptr + width) chars) :
      WellFormed text limit ptr (char :: chars)

/-- No byte outside of the string is read, its length is found if it is well formed, and it
is rejected if it is not. -/
structure DecodesRight (text : Text) (limit : Nat) : Prop where
  inside : ∀ read ∈ utf8GetAll text limit limit 0, ∀ address ∈ read.reads, address < limit
  formed : ∀ chars, WellFormed text limit 0 chars →
    strLengthUtf8 text limit = chars.length ∧
      (utf8GetAll text limit limit 0).map Utf8Read.char = chars.map fun char : Nat => (char : Int)
  malformed : (∀ chars, ¬WellFormed text limit 0 chars) → strLengthUtf8 text limit = -1

def StrayLead (text : Text) (limit ptr : Nat) : Prop :=
  LeadsTwo (text ptr) ∧ ¬(ptr + 2 ≤ limit ∧ Continues (text (ptr + 1)))

def FormsThree (text : Text) (limit ptr : Nat) : Prop :=
  ptr + 3 ≤ limit ∧ LeadsThree (text ptr) ∧ Continues (text (ptr + 1)) ∧
    Continues (text (ptr + 2))

instance (text : Text) (limit ptr : Nat) : Decidable (StrayLead text limit ptr) :=
  inferInstanceAs (Decidable (_ ∧ ¬_))

instance (text : Text) (limit ptr : Nat) : Decidable (FormsThree text limit ptr) :=
  inferInstanceAs (Decidable (_ ∧ _ ∧ _ ∧ _))

def skipThree (text : Text) (limit ptr : Nat) : Nat :=
  if FormsThree text limit ptr then 3 else if LeadsThree (text ptr) then 4 else 1

def skip (text : Text) (limit ptr : Nat) : Nat :=
  if text ptr < 128#8 then
    1
  else if StrayLead text limit ptr then
    2 + skipThree text limit (ptr + 2)
  else if LeadsTwo (text ptr) then
    2
  else
    skipThree text limit ptr

inductive Reached (text : Text) (limit start : Nat) : Nat → Prop where
  | start : Reached text limit start start
  | next {ptr : Nat} (reached : Reached text limit start ptr) (inside : ptr < limit) :
      Reached text limit start (ptr + skip text limit ptr)

def Misread (text : Text) (limit ptr : Nat) : Prop :=
  StrayLead text limit ptr ∧ FormsThree text limit (ptr + 2)

def Rejected (text : Text) (limit ptr : Nat) : Prop :=
  (∀ width char, ¬Form text limit ptr width char) ∧ ¬Misread text limit ptr

/-- Every stray lead has two more bytes behind it, and where one is misread there is also a
byte that is rejected. -/
structure Regular (text : Text) (limit : Nat) : Prop where
  behind : ∀ ptr, Reached text limit 0 ptr → ptr < limit → StrayLead text limit ptr →
    ptr + 3 ≤ limit
  rejects : ∀ ptr, Reached text limit 0 ptr → ptr < limit → Misread text limit ptr →
    ∃ other, Reached text limit 0 other ∧ other < limit ∧ Rejected text limit other

section

variable {text : Text} {limit start ptr width char fuel : Nat} {reads : List Nat}
  {chars : List Nat}

theorem LeadsTwo.not_ascii : ∀ {byte : BitVec 8}, LeadsTwo byte → ¬byte < 128#8 := by
  decide

theorem LeadsTwo.not_leadsThree : ∀ {byte : BitVec 8}, LeadsTwo byte → ¬LeadsThree byte := by
  decide

theorem LeadsThree.not_ascii : ∀ {byte : BitVec 8}, LeadsThree byte → ¬byte < 128#8 := by
  decide

theorem FormsThree.form (formed : FormsThree text limit ptr) :
    Form text limit ptr 3 (threeBytes (text ptr) (text (ptr + 1)) (text (ptr + 2))) :=
  .three formed.1 formed.2.1 formed.2.2.1 formed.2.2.2

theorem utf8GetThree_ptr :
    (utf8GetThree text limit ptr reads).ptr = ptr + skipThree text limit ptr := by
  unfold utf8GetThree skipThree FormsThree
  split_ifs <;> first | rfl | tauto

theorem utf8GetThree_char :
    (utf8GetThree text limit ptr reads).char < 0 ↔ ¬FormsThree text limit ptr := by
  unfold utf8GetThree FormsThree
  split_ifs <;> simp [*]

theorem utf8GetThree_reads :
    (∀ address ∈ reads, address < limit) → ptr < limit →
      ∀ address ∈ (utf8GetThree text limit ptr reads).reads, address < limit := by
  intro before inside address
  unfold utf8GetThree
  split_ifs <;> simp only [List.mem_append, List.mem_cons, List.not_mem_nil, or_false] <;>
    rintro (early | late) <;> first | exact before _ early | omega

theorem mem_utf8GetThree_reads : ptr ∈ (utf8GetThree text limit ptr reads).reads := by
  unfold utf8GetThree
  split_ifs <;> simp

theorem Form.utf8Get (form : Form text limit ptr width char) :
    (utf8Get text limit ptr).char = char ∧ skip text limit ptr = width ∧
      ¬StrayLead text limit ptr ∧ 0 < width ∧ ptr + width ≤ limit := by
  unfold Strings.utf8Get skip
  cases form with
  | one inside ascii =>
      have notStray : ¬StrayLead text limit ptr := fun stray => stray.1.not_ascii ascii
      rw [if_neg (by omega), if_pos ascii, if_pos ascii]
      exact ⟨rfl, rfl, notStray, by decide, inside⟩
  | two inside lead second =>
      have notStray : ¬StrayLead text limit ptr := fun stray => stray.2 ⟨inside, second⟩
      rw [if_neg (by omega), if_neg lead.not_ascii, if_pos lead, if_pos inside, if_pos second,
        if_neg lead.not_ascii, if_neg notStray]
      exact ⟨rfl, if_pos lead, notStray, by decide, inside⟩
  | three inside lead second third =>
      have notLead : ¬LeadsTwo (text ptr) := fun two => two.not_leadsThree lead
      have notStray : ¬StrayLead text limit ptr := fun stray => notLead stray.1
      rw [if_neg (by omega), if_neg lead.not_ascii, if_neg notLead, if_neg lead.not_ascii,
        if_neg notStray, if_neg notLead, utf8GetThree, if_pos lead, if_pos inside,
        if_pos second, if_pos third, skipThree, if_pos ⟨inside, lead, second, third⟩]
      exact ⟨rfl, rfl, notStray, by decide, inside⟩

/-- Where the pointer is left, when -1 results, and what is read. -/
theorem utf8Get_spec (inside : ptr < limit) :
    (utf8Get text limit ptr).ptr = ptr + skip text limit ptr ∧
      ((utf8Get text limit ptr).char < 0 ↔ Rejected text limit ptr) ∧
      ((StrayLead text limit ptr → ptr + 3 ≤ limit) →
        ∀ address ∈ (utf8Get text limit ptr).reads, address < limit) ∧
      (StrayLead text limit ptr → ptr + 2 ∈ (utf8Get text limit ptr).reads) := by
  have within : ¬limit ≤ ptr := by omega
  by_cases ascii : text ptr < 128#8
  · have form : Form text limit ptr 1 (text ptr).toNat := .one inside ascii
    obtain ⟨decoded, skips, notStray, _, _⟩ := form.utf8Get
    refine ⟨?_, ?_, ?_, fun stray => absurd stray notStray⟩
    · rw [skips, utf8Get, if_neg within, if_pos ascii]
    · rw [decoded]
      exact iff_of_false (by omega) (fun rejected => rejected.1 _ _ form)
    · rw [utf8Get, if_neg within, if_pos ascii]
      simpa using fun _ => inside
  · by_cases lead : LeadsTwo (text ptr)
    · by_cases second : ptr + 2 ≤ limit ∧ Continues (text (ptr + 1))
      · have form : Form text limit ptr 2 (twoBytes (text ptr) (text (ptr + 1))) :=
          .two second.1 lead second.2
        obtain ⟨decoded, skips, notStray, _, _⟩ := form.utf8Get
        refine ⟨?_, ?_, ?_, fun stray => absurd stray notStray⟩
        · rw [skips, utf8Get, if_neg within, if_neg ascii, if_pos lead, if_pos second.1,
            if_pos second.2]
        · rw [decoded]
          exact iff_of_false (by omega) (fun rejected => rejected.1 _ _ form)
        · rw [utf8Get, if_neg within, if_neg ascii, if_pos lead, if_pos second.1,
            if_pos second.2]
          simp only [List.mem_cons, List.not_mem_nil, or_false]
          omega
      · -- the lead is a stray one, and its two bytes have been passed over
        have stray : StrayLead text limit ptr := ⟨lead, second⟩
        have moved : ∃ reads, utf8Get text limit ptr =
            utf8GetThree text limit (ptr + 2) reads ∧
              (ptr + 3 ≤ limit → ∀ address ∈ reads, address < limit) := by
          rw [utf8Get, if_neg within, if_neg ascii, if_pos lead]
          split_ifs with room continues
          · exact absurd ⟨room, continues⟩ second
          · refine ⟨_, rfl, fun _ => ?_⟩
            simp only [List.mem_cons, List.not_mem_nil, or_false]
            omega
          · refine ⟨_, rfl, fun _ => ?_⟩
            simp only [List.mem_cons, List.not_mem_nil, or_false]
            omega
        obtain ⟨reads, moved, early⟩ := moved
        have noForm : ∀ width char, ¬Form text limit ptr width char :=
          fun width char form => form.utf8Get.2.2.1 stray
        rw [moved]
        refine ⟨?_, ?_, fun behind => ?_, fun _ => mem_utf8GetThree_reads⟩
        · rw [utf8GetThree_ptr, skip, if_neg ascii, if_pos stray, Nat.add_assoc]
        · rw [utf8GetThree_char, Rejected, Misread]
          tauto
        · have room := behind stray
          exact utf8GetThree_reads (early room) (by omega)
    · have notStray : ¬StrayLead text limit ptr := fun stray => lead stray.1
      have direct : utf8Get text limit ptr = utf8GetThree text limit ptr [ptr] := by
        rw [utf8Get, if_neg within, if_neg ascii, if_neg lead]
      have form_iff : (∃ width char, Form text limit ptr width char) ↔
          FormsThree text limit ptr := by
        constructor
        · rintro ⟨width, char, form⟩
          cases form with
          | one _ isAscii => exact absurd isAscii ascii
          | two _ isLead _ => exact absurd isLead lead
          | three room isLead second third => exact ⟨room, isLead, second, third⟩
        · exact fun formed => ⟨_, _, formed.form⟩
      rw [direct]
      refine ⟨?_, ?_, fun _ => ?_, fun stray => absurd stray notStray⟩
      · rw [utf8GetThree_ptr, skip, if_neg ascii, if_neg notStray, if_neg lead]
      · rw [utf8GetThree_char, ← form_iff, Rejected, Misread, not_exists]
        simp only [not_exists, notStray, false_and, not_false_eq_true, and_true]
      · exact utf8GetThree_reads (by simpa using inside) inside

theorem skip_pos (text : Text) (limit ptr : Nat) : 0 < skip text limit ptr := by
  unfold skip skipThree
  split_ifs <;> omega

theorem Reached.head (reached : Reached text limit start ptr) :
    ptr = start ∨ start < limit ∧ Reached text limit (start + skip text limit start) ptr := by
  induction reached with
  | start => exact .inl rfl
  | next reached inside ih =>
      right
      rcases ih with rfl | ⟨starts, onward⟩
      · exact ⟨inside, .start⟩
      · exact ⟨starts, onward.next inside⟩

theorem Reached.behind (inside : start < limit)
    (reached : Reached text limit (start + skip text limit start) ptr) :
    Reached text limit start ptr := by
  induction reached with
  | start => exact Reached.start.next inside
  | next _ within ih => exact ih.next within

theorem utf8GetAll_cons (inside : ptr < limit) :
    utf8GetAll text limit (fuel + 1) ptr =
      utf8Get text limit ptr :: utf8GetAll text limit fuel (ptr + skip text limit ptr) := by
  rw [utf8GetAll, if_pos inside, ← (utf8Get_spec inside).1]

theorem strLengthFrom_cons (inside : ptr < limit) (length : Int) :
    strLengthFrom text limit (fuel + 1) ptr length =
      if (utf8Get text limit ptr).char < 0 then -1
      else strLengthFrom text limit fuel (ptr + skip text limit ptr) (length + 1) := by
  rw [strLengthFrom, if_pos inside, ← (utf8Get_spec inside).1]

theorem reached_of_mem {read : Utf8Read} (member : read ∈ utf8GetAll text limit fuel start) :
    ∃ ptr, Reached text limit start ptr ∧ ptr < limit ∧ read = utf8Get text limit ptr := by
  induction fuel generalizing start with
  | zero => cases member
  | succ fuel ih =>
      rcases Nat.lt_or_ge start limit with inside | outside
      · rw [utf8GetAll_cons inside] at member
        rcases List.mem_cons.mp member with rfl | later
        · exact ⟨start, .start, inside, rfl⟩
        · obtain ⟨ptr, reached, within, same⟩ := ih later
          exact ⟨ptr, reached.behind inside, within, same⟩
      · rw [utf8GetAll, if_neg (by omega)] at member
        cases member

theorem mem_of_reached (enough : limit ≤ start + fuel) (reached : Reached text limit start ptr)
    (inside : ptr < limit) : utf8Get text limit ptr ∈ utf8GetAll text limit fuel start := by
  induction fuel generalizing start with
  | zero =>
      rcases reached.head with rfl | ⟨starts, _⟩ <;> omega
  | succ fuel ih =>
      have forward := skip_pos text limit start
      rcases reached.head with rfl | ⟨starts, onward⟩
      · rw [utf8GetAll_cons inside]
        exact List.mem_cons_self
      · rw [utf8GetAll_cons starts]
        exact List.mem_cons_of_mem _ (ih (by omega) onward)

theorem strLengthFrom_accepted (enough : limit ≤ start + fuel)
    (accepted : ∀ ptr, Reached text limit start ptr → ptr < limit → ¬Rejected text limit ptr)
    (length : Int) :
    strLengthFrom text limit fuel start length =
      length + (utf8GetAll text limit fuel start).length := by
  induction fuel generalizing start length with
  | zero => exact (Int.add_zero length).symm
  | succ fuel ih =>
      have forward := skip_pos text limit start
      rcases Nat.lt_or_ge start limit with inside | outside
      · rw [strLengthFrom_cons inside, utf8GetAll_cons inside,
          if_neg (mt (utf8Get_spec inside).2.1.mp (accepted start .start inside)),
          ih (by omega) (fun ptr reached => accepted ptr (reached.behind inside))]
        push_cast [List.length_cons]
        omega
      · rw [strLengthFrom, if_neg (by omega), utf8GetAll, if_neg (by omega)]
        exact (Int.add_zero length).symm

theorem strLengthFrom_rejected (enough : limit ≤ start + fuel)
    (reached : Reached text limit start ptr) (inside : ptr < limit)
    (rejected : Rejected text limit ptr) (length : Int) :
    strLengthFrom text limit fuel start length = -1 := by
  induction fuel generalizing start length with
  | zero =>
      rcases reached.head with rfl | ⟨starts, _⟩ <;> omega
  | succ fuel ih =>
      have forward := skip_pos text limit start
      rcases reached.head with rfl | ⟨starts, onward⟩
      · rw [strLengthFrom_cons inside, if_pos ((utf8Get_spec inside).2.1.mpr rejected)]
      · rw [strLengthFrom_cons starts]
        split
        · rfl
        · exact ih (by omega) onward _

theorem WellFormed.forms (formed : WellFormed text limit start chars)
    (reached : Reached text limit start ptr) (inside : ptr < limit) :
    ∃ width char, Form text limit ptr width char := by
  induction formed with
  | nil => rcases reached.head with rfl | ⟨starts, _⟩ <;> omega
  | cons form rest ih =>
      rcases reached.head with rfl | ⟨starts, onward⟩
      · exact ⟨_, _, form⟩
      · rw [form.utf8Get.2.1] at onward
        exact ih onward

theorem WellFormed.chars_eq (formed : WellFormed text limit start chars)
    (enough : limit ≤ start + fuel) :
    (utf8GetAll text limit fuel start).map Utf8Read.char =
      chars.map fun char : Nat => (char : Int) := by
  induction formed generalizing fuel with
  | nil =>
      cases fuel with
      | zero => rfl
      | succ fuel => rw [utf8GetAll, if_neg (by omega)]; rfl
  | cons form rest ih =>
      obtain ⟨decoded, skips, _, positive, within⟩ := form.utf8Get
      cases fuel with
      | zero => omega
      | succ fuel =>
          rw [utf8GetAll_cons (by omega), skips, List.map_cons, List.map_cons, decoded,
            ih (by omega)]

theorem exists_wellFormed (enough : limit ≤ start + fuel) (low : start ≤ limit)
    (forms : ∀ ptr, Reached text limit start ptr → ptr < limit →
      ∃ width char, Form text limit ptr width char) :
    ∃ chars, WellFormed text limit start chars := by
  induction fuel generalizing start with
  | zero =>
      obtain rfl : start = limit := by omega
      exact ⟨[], .nil⟩
  | succ fuel ih =>
      rcases Nat.eq_or_lt_of_le low with rfl | inside
      · exact ⟨[], .nil⟩
      · obtain ⟨width, char, form⟩ := forms start .start inside
        obtain ⟨_, skips, _, positive, within⟩ := form.utf8Get
        obtain ⟨chars, rest⟩ := ih (by omega) within
          (fun ptr reached => forms ptr (Reached.behind inside (skips ▸ reached)))
        exact ⟨char :: chars, .cons form rest⟩

theorem DecodesRight.regular (right : DecodesRight text limit) : Regular text limit where
  behind := by
    intro ptr reached inside stray
    have last := right.inside _ (mem_of_reached (by omega) reached inside) _
      ((utf8Get_spec inside).2.2.2 stray)
    omega
  rejects := by
    intro ptr reached inside misread
    refine Classical.byContradiction fun none => ?_
    have accepted : ∀ other, Reached text limit 0 other → other < limit →
        ¬Rejected text limit other := fun other there within rejected =>
      none ⟨other, there, within, rejected⟩
    have length : strLengthFrom text limit limit 0 0 =
        0 + (utf8GetAll text limit limit 0).length :=
      strLengthFrom_accepted (by omega) accepted 0
    have formed : ∃ chars, WellFormed text limit 0 chars := by
      refine Classical.byContradiction fun not => ?_
      have rejected := right.malformed (not_exists.mp not)
      rw [strLengthUtf8, length] at rejected
      omega
    obtain ⟨chars, formed⟩ := formed
    obtain ⟨width, char, form⟩ := formed.forms reached inside
    exact form.utf8Get.2.2.1 misread.1

theorem Regular.decodesRight (regular : Regular text limit) : DecodesRight text limit where
  inside := by
    intro read member address
    obtain ⟨ptr, reached, inside, rfl⟩ := reached_of_mem member
    exact (utf8Get_spec inside).2.2.1 (regular.behind ptr reached inside) address
  formed := by
    intro chars formed
    have decoded : (utf8GetAll text limit limit 0).map Utf8Read.char =
        chars.map fun char : Nat => (char : Int) := formed.chars_eq (by omega)
    refine ⟨?_, decoded⟩
    have length := congrArg List.length decoded
    rw [List.length_map, List.length_map] at length
    rw [strLengthUtf8, strLengthFrom_accepted (by omega), length, Int.zero_add]
    intro ptr reached inside rejected
    obtain ⟨width, char, form⟩ := formed.forms reached inside
    exact rejected.1 width char form
  malformed := by
    intro malformed
    have broken : ∃ ptr, Reached text limit 0 ptr ∧ ptr < limit ∧
        ∀ width char, ¬Form text limit ptr width char := by
      refine Classical.byContradiction fun none => ?_
      have enough : limit ≤ 0 + limit := by omega
      obtain ⟨chars, formed⟩ := exists_wellFormed enough (Nat.zero_le limit)
        fun ptr reached inside => Classical.byContradiction fun noForm =>
          none ⟨ptr, reached, inside, fun width char form => noForm ⟨width, char, form⟩⟩
      exact malformed chars formed
    obtain ⟨ptr, reached, inside, noForm⟩ := broken
    by_cases misread : Misread text limit ptr
    · obtain ⟨other, there, within, rejected⟩ := regular.rejects ptr reached inside misread
      exact strLengthFrom_rejected (by omega) there within rejected 0
    · exact strLengthFrom_rejected (by omega) reached inside ⟨noForm, misread⟩ 0

end

/-- A string is decoded without a read outside of it and rejected exactly if it is not well
formed, exactly if every lead of two bytes without its second one is well inside of it and
not taken for a character in a string that is accepted. -/
theorem utf8_decodes_right_iff (text : Text) (limit : Nat) :
    DecodesRight text limit ↔ Regular text limit :=
  ⟨DecodesRight.regular, Regular.decodesRight⟩

/-- Two bytes that form no character are passed over with the one behind them. -/
theorem utf8_accepts_malformed :
    ¬∀ (text : Text) (limit : Nat), DecodesRight text limit := by
  intro right
  let text : Text := fun i => [0xC2#8, 0x41#8, 0xE1#8, 0x80#8, 0x80#8].getD i 0
  have rejected := (right text 5).malformed fun chars formed => by
    obtain ⟨width, char, form⟩ := formed.forms .start (by decide)
    exact form.utf8Get.2.2.1 (by decide : StrayLead text 5 0)
  have accepted : strLengthUtf8 text 5 = 1 := by decide
  rw [accepted] at rejected
  cases rejected

end LaTTe.Strings
