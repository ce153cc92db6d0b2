import SignatureCache.Proofs.Path.Data
import SignatureCache.Proofs.Path.Row

/-!
# Which tables make a path

A table makes a path if every line is read, and the rows that the lines say are sound as a whole:
there is a row, rows have coordinates, the depth is one or two, and the parameters are finite and in
order. The path has one increment for each row. Any other table is refused, for the first line that
has a fault or else, if no line has one, for the first rule that the rows break as a whole.
-/

namespace SignatureCache

namespace Path

variable {content : List UInt8} {rows : List Row} {width depth : Nat} {path : Path Float}
  {e : TableError}

/-! ### From rows to a path -/

theorem length_flatMap_coordinates (hwidth : ∀ row ∈ rows, row.coordinates.length = width) :
    (rows.flatMap Row.coordinates).length = (rows.map Row.parameter).length * width := by
  rw [List.length_flatMap, List.map_congr_left hwidth]
  simp

/-- The rows are those of a path: they have one width, which is not zero, the depth is one or two,
and the parameters are finite and in order. -/
structure Sound (width depth : Nat) (rows : List Row) : Prop where
  width_ne_zero : width ≠ 0
  length_coordinates : ∀ row ∈ rows, row.coordinates.length = width
  depth_eq : depth = 1 ∨ depth = 2
  finite : ∀ row ∈ rows, row.parameter.isFinite = true
  inOrder : InOrder (rows.map Row.parameter)

/-- The path has one increment for each row, with its parameter and its coordinates. -/
structure HasRows (path : Path Float) (rows : List Row) : Prop where
  parameters : path.parameters.toList = rows.map Row.parameter
  increments : path.increments.toList.map Subtype.val =
    rows.map fun row => .ofLetters row.coordinates path.depth
  exact : path.exact = false

theorem eq_ofRows_iff {depth : Depth} (hwidth : ∀ row ∈ rows, row.coordinates.length = width)
    (h : (rows.flatMap Row.coordinates).length = (rows.map Row.parameter).length * width) :
    path = ofRows width depth (rows.map Row.parameter) (rows.flatMap Row.coordinates) h ↔
      path.width = width ∧ path.depth = depth ∧ path.HasRows rows := by
  have hcut := map_val_rows depth (List.forall_mem_map.2 hwidth)
    ((List.length_map Row.coordinates).trans (List.length_map Row.parameter).symm) h
  rw [List.map_map] at hcut
  constructor
  · rintro rfl
    exact ⟨rfl, rfl, rfl, hcut, rfl⟩
  · obtain ⟨width', depth', parameters, increments, exact⟩ := path
    rintro ⟨rfl, rfl, hparameters, hincrements, rfl⟩
    have hparameters : parameters = (rows.map Row.parameter).toArray :=
      congrArg List.toArray hparameters
    have hincrements : increments.toList =
        Path.rows width' depth' _ (rows.flatMap Row.coordinates) h :=
      List.map_injective_iff.2 Subtype.val_injective (hincrements.trans hcut.symm)
    have hincrements := congrArg List.toArray hincrements
    rw [Array.toArray_toList] at hincrements
    rw [ofRows, hparameters, hincrements]

theorem ofData?_rows_eq_ok_iff (hwidth : ∀ row ∈ rows, row.coordinates.length = width) :
    ofData? width depth (rows.map Row.parameter) (rows.flatMap Row.coordinates) = .ok path ↔
      path.width = width ∧ path.depth.toNat = depth ∧ Sound width depth rows ∧
        path.HasRows rows := by
  have hlength := length_flatMap_coordinates hwidth
  have hfinite : (∀ p ∈ rows.map Row.parameter, Scalar.isFinite p = true) ↔
      ∀ row ∈ rows, row.parameter.isFinite = true := by
    rw [List.forall_mem_map]
    rfl
  rw [ofData?_eq_ok_iff]
  constructor
  · rintro ⟨hne, hnumbers, hsorted, cutOff, hlength, rfl, hpath⟩
    obtain ⟨hpathWidth, rfl, hrows⟩ := (eq_ofRows_iff hwidth hlength).1 hpath
    exact ⟨hpathWidth, rfl,
      ⟨hne, hwidth, Depth.exists_toNat_iff.1 ⟨path.depth, rfl⟩, hfinite.1 hnumbers,
        (nonDecreasing_iff_of_finite hnumbers).1 hsorted⟩,
      hrows⟩
  · rintro ⟨hpathWidth, rfl, hsound, hrows⟩
    have hnumbers := hfinite.2 hsound.finite
    exact ⟨hsound.width_ne_zero, hnumbers, (nonDecreasing_iff_of_finite hnumbers).2 hsound.inOrder,
      path.depth, hlength, rfl, (eq_ofRows_iff hwidth hlength).2 ⟨hpathWidth, rfl, hrows⟩⟩

theorem Sound.exists_hasRows (h : Sound width depth rows) :
    ∃ path : Path Float, path.width = width ∧ path.depth.toNat = depth ∧ path.HasRows rows := by
  obtain ⟨cutOff, rfl⟩ := Depth.exists_toNat_iff.2 h.depth_eq
  have hlength := length_flatMap_coordinates h.length_coordinates
  obtain ⟨hwidth, hdepth, hrows⟩ :=
    (eq_ofRows_iff h.length_coordinates hlength).1 (Eq.refl (ofRows width cutOff _ _ hlength))
  exact ⟨_, hwidth, congrArg Depth.toNat hdepth, hrows⟩

/-! ### From a table to rows -/

/-- Why rows that are read make no path. -/
inductive RowsFault (depth : Nat) (rows : List Row) : TableError → Prop
  | noRows (h : rows = []) : RowsFault depth rows .noRows
  | path {width : Nat} {cause : PathError} (hne : rows ≠ [])
    (hwidth : ∀ row ∈ rows, row.coordinates.length = width)
    (hcause : DataFault width depth (rows.map Row.parameter) cause) :
    RowsFault depth rows (.path cause)

theorem ofTable?_eq_bind (content : List UInt8) (depth : Nat) :
    ofTable? (some content) depth =
      Row.readLines 1 none (Row.lines content) >>= fun rows =>
        match rows with
        | [] => .error .noRows
        | first :: rest =>
          match ofData? first.coordinates.length depth ((first :: rest).map Row.parameter)
            ((first :: rest).flatMap Row.coordinates) with
          | .ok path => .ok path
          | .error cause => .error (.path cause) := by
  rw [ofTable?]
  refine bind_congr fun rows => ?_
  cases rows with
  | nil => rfl
  | cons first rest => rfl

theorem ofTable?_eq_ok_iff :
    ofTable? (some content) depth = .ok path ↔
      ∃ rows, Row.LinesSay (Row.lines content) rows ∧ rows ≠ [] ∧ Sound path.width depth rows ∧
        path.depth.toNat = depth ∧ path.HasRows rows := by
  simp only [ofTable?_eq_bind, bind_eq_ok_iff, Row.readLines_eq_ok_iff]
  constructor
  · rintro ⟨rows, ⟨hsay, n, -, hwidth⟩, h⟩
    cases rows with
    | nil => cases h
    | cons first rest =>
      dsimp only at h
      rw [hwidth first List.mem_cons_self] at h
      split at h
      · next path hpath =>
        cases h
        obtain ⟨rfl, hdepth, hsound, hrows⟩ := (ofData?_rows_eq_ok_iff hwidth).1 hpath
        exact ⟨_, hsay, List.cons_ne_nil _ _, hsound, hdepth, hrows⟩
      · cases h
  · rintro ⟨rows, hsay, hne, hsound, hdepth, hrows⟩
    have hwidth := hsound.length_coordinates
    refine ⟨rows, ⟨hsay, path.width, by simp, hwidth⟩, ?_⟩
    cases rows with
    | nil => exact absurd rfl hne
    | cons first rest =>
      dsimp only
      rw [hwidth first List.mem_cons_self,
        (ofData?_rows_eq_ok_iff hwidth).2 ⟨rfl, hdepth, hsound, hrows⟩]

theorem ofTable?_eq_error_iff :
    ofTable? (some content) depth = .error e ↔
      Row.FirstFault 1 none (Row.lines content) e ∨
        ∃ rows, Row.LinesSay (Row.lines content) rows ∧ Row.Uniform none rows ∧
          RowsFault depth rows e := by
  simp only [ofTable?_eq_bind, bind_eq_error_iff, Row.readLines_eq_error_iff,
    Row.readLines_eq_ok_iff, and_assoc]
  refine or_congr_right (exists_congr fun rows => and_congr_right fun hsay => and_congr_right ?_)
  rintro ⟨n, -, hwidth⟩
  cases rows with
  | nil =>
    constructor
    · rintro ⟨⟩
      exact .noRows rfl
    · rintro (_ | ⟨hne, -, -⟩)
      · rfl
      · exact absurd rfl hne
  | cons first rest =>
    have hfirst := hwidth first List.mem_cons_self
    have hlength := length_flatMap_coordinates hwidth
    dsimp only
    rw [hfirst]
    constructor
    · intro h
      split at h
      · cases h
      · next cause hcause =>
        cases h
        exact .path (List.cons_ne_nil _ _) hwidth ((ofData?_eq_error_iff hlength).1 hcause)
    · rintro (h | ⟨-, hwidth', hcause⟩)
      · cases h
      · obtain rfl := hfirst.symm.trans (hwidth' first List.mem_cons_self)
        rw [(ofData?_eq_error_iff hlength).2 hcause]

/-- A file is loaded if and only if each of its lines says nothing or a row, and there are rows that
are sound; the path then has exactly these rows. What is reported of any other file is the fault of
the first line that has one. Only if no line has a fault is it what is wrong with the rows. -/
theorem table_loaded_or_first_fault (content : List UInt8) (depth : Nat) :
    (∀ lines, Row.lines content = lines ↔ Row.IsLines content lines) ∧
    ((∃ path, ofTable? (some content) depth = .ok path) ↔
      ∃ rows width, Row.LinesSay (Row.lines content) rows ∧ rows ≠ [] ∧ Sound width depth rows) ∧
    (∀ path, ofTable? (some content) depth = .ok path ↔
      ∃ rows, Row.LinesSay (Row.lines content) rows ∧ rows ≠ [] ∧ Sound path.width depth rows ∧
        path.depth.toNat = depth ∧ path.HasRows rows) ∧
    ∀ e, ofTable? (some content) depth = .error e ↔
      Row.FirstFault 1 none (Row.lines content) e ∨
        ∃ rows, Row.LinesSay (Row.lines content) rows ∧ Row.Uniform none rows ∧
          RowsFault depth rows e := by
  refine ⟨fun lines => Row.lines_eq_iff, ?_, fun path => ofTable?_eq_ok_iff,
    fun e => ofTable?_eq_error_iff⟩
  constructor
  · rintro ⟨path, hpath⟩
    obtain ⟨rows, hsay, hne, hsound, -⟩ := ofTable?_eq_ok_iff.1 hpath
    exact ⟨rows, path.width, hsay, hne, hsound⟩
  · rintro ⟨rows, width, hsay, hne, hsound⟩
    obtain ⟨path, rfl, hdepth, hrows⟩ := hsound.exists_hasRows
    exact ⟨path, ofTable?_eq_ok_iff.2 ⟨rows, hsay, hne, hsound, hdepth, hrows⟩⟩

-- Remarks and blank lines count as lines.
example : (match ofTable? (some "# t, x, y\n0.0, 1.0, 0.0\n\n0.5,1.0\n".toUTF8.toList) 2 with
    | .ok _ => none
    | .error e => some e) = some (.coordinateCount 4 1 2) := by
  decide +kernel

end Path

end SignatureCache
