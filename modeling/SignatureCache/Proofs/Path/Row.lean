import Mathlib.Data.List.Forall2
import SignatureCache.Path.Table
import SignatureCache.Proofs.Text.Separated

/-!
# What the lines of a table say

A line of a table says nothing, or it says the numbers of a row. It is at fault if it is no text, if
one of its fields holds no number, or if its row has not as many coordinates as the rows before it.
Reading line after line gives the rows that the lines say; it fails if there is a fault, and then as
the first faulty line does.
-/

namespace SignatureCache

/-! ### Steps that can fail -/

section Failures

variable {ε α β : Type}

theorem bind_eq_ok_iff {x : Except ε α} {f : α → Except ε β} {b : β} :
    x >>= f = .ok b ↔ ∃ a, x = .ok a ∧ f a = .ok b := by
  cases x with
  | error e => simp [bind, Except.bind]
  | ok a => simp [bind, Except.bind]

theorem bind_eq_error_iff {x : Except ε α} {f : α → Except ε β} {e : ε} :
    x >>= f = .error e ↔ x = .error e ∨ ∃ a, x = .ok a ∧ f a = .error e := by
  cases x with
  | error e => simp [bind, Except.bind]
  | ok a => simp [bind, Except.bind]

theorem map_eq_ok_iff {x : Except ε α} {f : α → β} {b : β} :
    f <$> x = .ok b ↔ ∃ a, x = .ok a ∧ f a = b := by
  cases x with
  | error e => simp [Functor.map, Except.map]
  | ok a => simp [Functor.map, Except.map]

theorem map_eq_error_iff {x : Except ε α} {f : α → β} {e : ε} :
    f <$> x = .error e ↔ x = .error e := by
  cases x with
  | error e => simp [Functor.map, Except.map]
  | ok a => simp [Functor.map, Except.map]

variable {f : α → Except ε β} {xs : List α}

theorem mapM_eq_ok_iff {ys : List β} :
    xs.mapM f = .ok ys ↔ List.Forall₂ (fun x y => f x = .ok y) xs ys := by
  induction xs generalizing ys with
  | nil =>
    rw [List.mapM_nil, List.forall₂_nil_left_iff]
    exact ⟨fun h => (Except.ok.inj h).symm, fun h => h ▸ rfl⟩
  | cons x xs ih =>
    rw [List.mapM_cons, List.forall₂_cons_left_iff]
    simp only [bind_eq_ok_iff, ih]
    constructor
    · rintro ⟨y, hy, ys, hys, ⟨⟩⟩
      exact ⟨y, ys, hy, hys, rfl⟩
    · rintro ⟨y, ys, hy, hys, rfl⟩
      exact ⟨y, hy, ys, hys, rfl⟩

/-- A traversal fails as its first step that fails. -/
theorem mapM_eq_error_iff {e : ε} :
    xs.mapM f = .error e ↔ ∃ before x after, xs = before ++ x :: after ∧
      (∀ y ∈ before, ∃ b, f y = .ok b) ∧ f x = .error e := by
  induction xs with
  | nil =>
    constructor
    · rintro ⟨⟩
    · rintro ⟨before, x, after, h, -⟩
      simp at h
  | cons x xs ih =>
    rw [List.mapM_cons]
    simp only [bind_eq_error_iff, ih]
    constructor
    · rintro (hx | ⟨b, hx, ⟨before, x', after, rfl, hbefore, hx'⟩ | ⟨_, _, ⟨⟩⟩⟩)
      · exact ⟨[], x, xs, rfl, by simp, hx⟩
      · exact ⟨x :: before, x', after, rfl, List.forall_mem_cons.2 ⟨⟨b, hx⟩, hbefore⟩, hx'⟩
    · rintro ⟨before, x', after, h, hbefore, hx'⟩
      cases before with
      | nil =>
        cases h
        exact .inl hx'
      | cons y before =>
        cases h
        obtain ⟨⟨b, hb⟩, hbefore⟩ := List.forall_mem_cons.1 hbefore
        exact .inr ⟨b, hb, .inl ⟨before, x', after, rfl, hbefore, hx'⟩⟩

end Failures

/-! ### Lines and fields -/

namespace Path

namespace Row

variable {content line : List UInt8} {ls : List (List UInt8)} {cs field : List Char} {number : Nat}
  {expected? : Option Nat} {row? : Option Row} {rows : List Row} {e : TableError}

/-- The lines of a file, none of which holds a line break. Each line break ends one of them, and
what comes after the last line break is a line too, unless it is empty. -/
def IsLines (content : List UInt8) (lines : List (List UInt8)) : Prop :=
  ∃ ended last, (∀ line ∈ ended ++ [last], 10 ∉ line) ∧
    ended.flatMap (· ++ [10]) ++ last = content ∧
    lines = if last = [] then ended else ended ++ [last]

theorem lines_eq_iff : lines content = ls ↔ IsLines content ls := by
  have hlines : ∀ ended last, Separated.pieces 10 content = ended ++ [last] →
      lines content = if last = [] then ended else ended ++ [last] := by
    intro ended last hpieces
    simp [lines, hpieces]
  constructor
  · rintro rfl
    have hne := Separated.pieces_ne_nil 10 content
    have hpieces := (List.dropLast_append_getLast hne).symm
    obtain ⟨-, hnot, hjoin⟩ := Separated.pieces_eq_iff.1 hpieces
    rw [Separated.intercalate_append_singleton] at hjoin
    exact ⟨_, _, hnot, hjoin, hlines _ _ hpieces⟩
  · rintro ⟨ended, last, hnot, hjoin, rfl⟩
    refine hlines ended last (Separated.pieces_eq_iff.2 ⟨by simp, hnot, ?_⟩)
    rw [Separated.intercalate_append_singleton, hjoin]

/-- The line is text, and between blanks it has these characters. -/
def IsText (line : List UInt8) (cs : List Char) : Prop :=
  ∃ text : String, text.toByteArray = ⟨line.toArray⟩ ∧ Blank.trim text.toList = cs

/-- The line is empty, or a remark. -/
def IsRemark (cs : List Char) : Prop :=
  cs = [] ∨ ∃ rest, cs = '#' :: rest

/-- Between blanks the field is the text of this number. -/
def Writes (field : List Char) (x : Float) : Prop :=
  Decimal.read (String.ofList (Blank.trim field)) = .ok x

theorem fromUTF8?_eq_some_iff {bytes : ByteArray} {text : String} :
    String.fromUTF8? bytes = some text ↔ text.toByteArray = bytes := by
  unfold String.fromUTF8?
  constructor
  · intro h
    split at h
    · cases h
      rfl
    · cases h
  · rintro rfl
    rw [dif_pos text.isValidUTF8]
    rfl

theorem isRemark_iff : IsRemark cs ↔ (cs.isEmpty || cs.head? == some '#') = true := by
  cases cs with
  | nil => simp [IsRemark]
  | cons c cs => simp [IsRemark]

/-- What a line says: nothing, or the numbers of a row, with commas between the fields. -/
inductive Says (line : List UInt8) : Option Row → Prop
  | nothing {cs : List Char} (htext : IsText line cs) (hcs : IsRemark cs) : Says line none
  | row {cs : List Char} {fields : List (List Char)} {parameter : Float} {coordinates : List Float}
    (htext : IsText line cs) (hcs : ¬ IsRemark cs) (hfields : Separated.IsSplit ',' cs fields)
    (hnumbers : List.Forall₂ Writes fields (parameter :: coordinates)) :
    Says line (some ⟨parameter, coordinates⟩)

/-- Why the line with this number is not read where so many coordinates are expected. Of the fields
that hold no number the first one is blamed, and a row is counted only if all its fields hold
numbers. -/
inductive LineFault (number : Nat) (expected? : Option Nat) (line : List UInt8) : TableError → Prop
  | notText (h : ∀ cs, ¬ IsText line cs) : LineFault number expected? line .notText
  | number {cs : List Char} {before after : List (List Char)} {field : List Char}
    {cause : Decimal.ReadError} (htext : IsText line cs) (hcs : ¬ IsRemark cs)
    (hfields : Separated.IsSplit ',' cs (before ++ field :: after))
    (hbefore : ∀ field ∈ before, ∃ x, Writes field x)
    (hfield : Decimal.read (String.ofList (Blank.trim field)) = .error cause) :
    LineFault number expected? line (.number (String.ofList (Blank.trim field)) number cause)
  | coordinateCount {row : Row} {expected : Nat} (hrow : Says line (some row))
    (hexpected : expected? = some expected) (hcount : row.coordinates.length ≠ expected) :
    LineFault number expected? line
      (.coordinateCount number row.coordinates.length expected)

theorem readField_eq_ok_iff (number : Nat) {x : Float} :
    readField number field = .ok x ↔ Writes field x := by
  unfold readField Writes
  cases hread : Decimal.read (String.ofList (Blank.trim field)) with
  | ok y => simp [hread]
  | error cause => simp [hread]

theorem readField_eq_error_iff (number : Nat) :
    readField number field = .error e ↔
      ∃ cause, Decimal.read (String.ofList (Blank.trim field)) = .error cause ∧
        e = .number (String.ofList (Blank.trim field)) number cause := by
  unfold readField
  cases hread : Decimal.read (String.ofList (Blank.trim field)) with
  | ok y => simp [hread]
  | error cause => simp [hread, eq_comm]

theorem readLine_of_isText (h : IsText line cs) : readLine number line =
      if cs.isEmpty || cs.head? == some '#' then .ok none
      else do
        match ← (Separated.pieces ',' cs).mapM (readField number) with
        | parameter :: coordinates => return some ⟨parameter, coordinates⟩
        | [] => return none := by
  obtain ⟨text, htext, rfl⟩ := h
  rw [readLine, fromUTF8?_eq_some_iff.2 htext]
  rfl

theorem readLine_of_not_isText (h : ∀ cs, ¬ IsText line cs) :
    readLine number line = .error .notText := by
  have hnone : String.fromUTF8? ⟨line.toArray⟩ = none := by
    cases htext : String.fromUTF8? ⟨line.toArray⟩ with
    | none => rfl
    | some text => exact absurd ⟨text, fromUTF8?_eq_some_iff.1 htext, rfl⟩ (h _)
  rw [readLine, hnone]
  rfl

theorem readLine_eq_ok_iff (number : Nat) :
    readLine number line = .ok row? ↔ Says line row? := by
  constructor
  · intro h
    by_cases htext : ∃ cs, IsText line cs
    · obtain ⟨cs, htext⟩ := htext
      rw [readLine_of_isText htext] at h
      split at h
      · next hcs =>
        cases h
        exact .nothing htext (isRemark_iff.2 hcs)
      · next hcs =>
        obtain ⟨numbers, hnumbers, h⟩ := bind_eq_ok_iff.1 h
        simp only [mapM_eq_ok_iff, readField_eq_ok_iff] at hnumbers
        cases numbers with
        | nil =>
          exact absurd (List.forall₂_nil_right_iff.1 hnumbers) (Separated.pieces_ne_nil ',' cs)
        | cons parameter coordinates =>
          cases h
          exact .row htext (mt isRemark_iff.1 hcs) (Separated.pieces_eq_iff.1 rfl) hnumbers
    · rw [readLine_of_not_isText (not_exists.1 htext)] at h
      cases h
  · rintro (⟨htext, hcs⟩ | ⟨htext, hcs, hfields, hnumbers⟩)
    · rw [readLine_of_isText htext, if_pos (isRemark_iff.1 hcs)]
    · have hread := hnumbers.imp fun _ _ => (readField_eq_ok_iff number).2
      rw [readLine_of_isText htext, if_neg (mt isRemark_iff.2 hcs),
        Separated.pieces_eq_iff.2 hfields, mapM_eq_ok_iff.2 hread]
      rfl

/-- By itself a line may have any number of coordinates. -/
theorem readLine_eq_error_iff (number : Nat) :
    readLine number line = .error e ↔ LineFault number none line e := by
  constructor
  · intro h
    by_cases htext : ∃ cs, IsText line cs
    · obtain ⟨cs, htext⟩ := htext
      rw [readLine_of_isText htext] at h
      split at h
      · cases h
      · next hcs =>
        rcases bind_eq_error_iff.1 h with h | ⟨numbers, -, h⟩
        · obtain ⟨before, field, after, hsplit, hbefore, hfield⟩ := mapM_eq_error_iff.1 h
          obtain ⟨cause, hcause, rfl⟩ := (readField_eq_error_iff number).1 hfield
          simp only [readField_eq_ok_iff] at hbefore
          exact .number htext (mt isRemark_iff.1 hcs) (Separated.pieces_eq_iff.1 hsplit) hbefore
            hcause
        · cases numbers with
          | nil => cases h
          | cons parameter coordinates => cases h
    · rw [readLine_of_not_isText (not_exists.1 htext)] at h
      cases h
      exact .notText (not_exists.1 htext)
  · rintro (htext | ⟨htext, hcs, hfields, hbefore, hfield⟩ | ⟨-, ⟨⟩, -⟩)
    · exact readLine_of_not_isText htext
    · rw [readLine_of_isText htext, if_neg (mt isRemark_iff.2 hcs),
        Separated.pieces_eq_iff.2 hfields]
      refine bind_eq_error_iff.2 (.inl (mapM_eq_error_iff.2 ⟨_, _, _, rfl, ?_, ?_⟩))
      · simpa only [readField_eq_ok_iff] using hbefore
      · exact (readField_eq_error_iff number).2 ⟨_, hfield, rfl⟩

/-! ### Reading line after line -/

/-- Reads one line, whose row has as many coordinates as are expected. -/
def readRow (number : Nat) (expected? : Option Nat) (line : List UInt8) :
    Except TableError (Option Row) :=
  match readLine number line with
  | .error e => .error e
  | .ok none => .ok none
  | .ok (some row) =>
    let expected := expected?.getD row.coordinates.length
    if row.coordinates.length = expected then .ok (some row)
    else .error (.coordinateCount number row.coordinates.length expected)

/-- The number of coordinates that is expected after these rows: what was expected before them, or
else what the first one has. -/
def expectedAfter (expected? : Option Nat) (rows : List Row) : Option Nat :=
  expected?.or (rows.head?.map fun row => row.coordinates.length)

theorem expectedAfter_nil (expected? : Option Nat) : expectedAfter expected? [] = expected? := by
  cases expected? <;> rfl

theorem eq_getD_self_iff {α : Type} {a : α} {o : Option α} :
    a = o.getD a ↔ ∀ b ∈ o, a = b := by
  cases o with
  | none => simp
  | some b => simp

theorem readRow_eq_ok_iff :
    readRow number expected? line = .ok row? ↔
      Says line row? ∧ ∀ row ∈ row?, ∀ n ∈ expected?, row.coordinates.length = n := by
  rw [← readLine_eq_ok_iff number, readRow]
  rcases readLine number line with e | _ | row
  · simp
  · constructor
    · rintro ⟨⟩
      simp
    · rintro ⟨⟨⟩, -⟩
      rfl
  · dsimp only
    split
    · next hcount =>
      constructor
      · rintro ⟨⟩
        exact ⟨rfl, by simpa using eq_getD_self_iff.1 hcount⟩
      · rintro ⟨⟨⟩, -⟩
        rfl
    · next hcount =>
      constructor
      · rintro ⟨⟩
      · rintro ⟨⟨⟩, hall⟩
        exact absurd (eq_getD_self_iff.2 (hall row rfl)) hcount

theorem readRow_eq_error_iff :
    readRow number expected? line = .error e ↔ LineFault number expected? line e := by
  constructor
  · intro h
    unfold readRow at h
    split at h
    · next e' he =>
      cases h
      rcases (readLine_eq_error_iff number).1 he with
        htext | ⟨htext, hcs, hfields, hbefore, hfield⟩ | ⟨-, ⟨⟩, -⟩
      · exact .notText htext
      · exact .number htext hcs hfields hbefore hfield
    · cases h
    · next row hrow =>
      cases expected? with
      | none => simp at h
      | some n =>
        dsimp only [Option.getD_some] at h
        split at h
        · cases h
        · next hcount =>
          cases h
          exact .coordinateCount ((readLine_eq_ok_iff number).1 hrow) rfl hcount
  · rintro (htext | ⟨htext, hcs, hfields, hbefore, hfield⟩ | ⟨hrow, rfl, hcount⟩)
    · rw [readRow, (readLine_eq_error_iff number).2 (.notText htext)]
    · rw [readRow, (readLine_eq_error_iff number).2 (.number htext hcs hfields hbefore hfield)]
    · rw [readRow, (readLine_eq_ok_iff number).2 hrow]
      exact if_neg hcount

theorem readLines_cons (number : Nat) (expected? : Option Nat) (line : List UInt8)
    (lines : List (List UInt8)) :
    readLines number expected? (line :: lines) =
      readRow number expected? line >>= fun row? =>
        (row?.toList ++ ·) <$>
          readLines (number + 1) (expectedAfter expected? row?.toList) lines := by
  rw [readLines, readRow]
  rcases readLine number line with e | _ | row
  · rfl
  · change readLines (number + 1) expected? lines =
      (([] : List Row) ++ ·) <$> readLines (number + 1) (expectedAfter expected? []) lines
    rw [expectedAfter_nil]
    exact (id_map _).symm
  · have hexpected : some (expected?.getD row.coordinates.length) =
        expectedAfter expected? [row] := by
      cases expected? with
      | none => rfl
      | some n => rfl
    dsimp only
    by_cases hcount : row.coordinates.length = expected?.getD row.coordinates.length
    · rw [if_pos hcount]
      refine (if_neg (not_not.2 hcount)).trans ?_
      rw [hexpected]
      exact (map_eq_pure_bind _ _).symm
    · rw [if_neg hcount]
      exact if_pos hcount

/-- The rows that the lines say, in their order. -/
inductive LinesSay : List (List UInt8) → List Row → Prop
  | nil : LinesSay [] []
  | cons {line : List UInt8} {lines : List (List UInt8)} {row? : Option Row} {rows : List Row}
    (hline : Says line row?) (hlines : LinesSay lines rows) :
    LinesSay (line :: lines) (row?.toList ++ rows)

/-- The rows have one number of coordinates, which is the expected one if there is one. -/
def Uniform (expected? : Option Nat) (rows : List Row) : Prop :=
  ∃ n, (∀ m ∈ expected?, m = n) ∧ ∀ row ∈ rows, row.coordinates.length = n

/-- The fault of the first line that has one, where lines are counted from this number on. -/
def FirstFault (number : Nat) (expected? : Option Nat) (lines : List (List UInt8))
    (e : TableError) : Prop :=
  ∃ before line after rows, lines = before ++ line :: after ∧ LinesSay before rows ∧
    Uniform expected? rows ∧
      LineFault (number + before.length) (expectedAfter expected? rows) line e

theorem expectedAfter_append (expected? : Option Nat) (rows rows' : List Row) :
    expectedAfter (expectedAfter expected? rows) rows' =
      expectedAfter expected? (rows ++ rows') := by
  cases expected? with
  | some n => rfl
  | none =>
    cases rows with
    | nil => rfl
    | cons row rows => rfl

theorem uniform_append :
    Uniform expected? (row?.toList ++ rows) ↔
      (∀ row ∈ row?, ∀ n ∈ expected?, row.coordinates.length = n) ∧
        Uniform (expectedAfter expected? row?.toList) rows := by
  cases row? with
  | none => simp [Uniform, expectedAfter]
  | some row =>
    cases expected? with
    | none => simp [Uniform, expectedAfter]
    | some n => simp [Uniform, expectedAfter]

theorem uniform_nil (expected? : Option Nat) : Uniform expected? [] :=
  ⟨expected?.getD 0, by cases expected? <;> simp, by simp⟩

theorem readLines_eq_ok_iff :
    readLines number expected? ls = .ok rows ↔ LinesSay ls rows ∧ Uniform expected? rows := by
  induction ls generalizing number expected? rows with
  | nil =>
    constructor
    · rintro ⟨⟩
      exact ⟨.nil, uniform_nil expected?⟩
    · rintro ⟨⟨⟩, -⟩
      rfl
  | cons line ls ih =>
    simp only [readLines_cons, bind_eq_ok_iff, readRow_eq_ok_iff, map_eq_ok_iff, ih]
    constructor
    · rintro ⟨row?, ⟨hline, hcount⟩, rows, ⟨hsay, huniform⟩, rfl⟩
      exact ⟨.cons hline hsay, uniform_append.2 ⟨hcount, huniform⟩⟩
    · rintro ⟨hline | ⟨hline, hsay⟩, huniform⟩
      obtain ⟨hcount, huniform⟩ := uniform_append.1 huniform
      exact ⟨_, ⟨hline, hcount⟩, _, ⟨hsay, huniform⟩, rfl⟩

theorem readLines_eq_error_iff :
    readLines number expected? ls = .error e ↔ FirstFault number expected? ls e := by
  induction ls generalizing number expected? with
  | nil =>
    constructor
    · rintro ⟨⟩
    · rintro ⟨before, line, after, rows, h, -⟩
      simp at h
  | cons line ls ih =>
    simp only [readLines_cons, bind_eq_error_iff, readRow_eq_ok_iff, readRow_eq_error_iff,
      map_eq_error_iff, ih]
    constructor
    · rintro (hfault |
        ⟨row?, ⟨hline, hcount⟩, before, line', after, rows, rfl, hsay, huniform, hfault⟩)
      · refine ⟨[], line, ls, [], rfl, .nil, uniform_nil expected?, ?_⟩
        rwa [expectedAfter_nil]
      · rw [expectedAfter_append] at hfault
        refine ⟨line :: before, line', after, _, rfl, .cons hline hsay,
          uniform_append.2 ⟨hcount, huniform⟩, ?_⟩
        rwa [List.length_cons, Nat.add_comm before.length, ← Nat.add_assoc]
    · rintro ⟨before, line', after, rows, h, hsay, huniform, hfault⟩
      cases hsay with
      | nil =>
        cases h
        rw [expectedAfter_nil] at hfault
        exact .inl hfault
      | @cons _ before row? rows hline hsay =>
        cases h
        obtain ⟨hcount, huniform⟩ := uniform_append.1 huniform
        rw [← expectedAfter_append, List.length_cons, Nat.add_comm before.length,
          ← Nat.add_assoc] at hfault
        exact .inr ⟨row?, ⟨hline, hcount⟩, before, line', after, rows, rfl, hsay, huniform,
          hfault⟩

end Row

end Path

end SignatureCache
