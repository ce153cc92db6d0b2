import SignatureCache.Proofs.Path.Selection

/-!
# What a log-signature is taken of

Two bisections cut the increments of an interval out of a path. On a path that was built from data
they cut exactly the half-open range: an increment is taken if its parameter is not less than the
start and less than the stop. That is so for every two doubles. No parameter is less than a bound
that is no number, which as a start takes in the whole path and as a stop none of it; and nothing is
taken where the stop comes before the start.
-/

namespace SignatureCache

namespace Path

section Scalars

variable {K : Type} [Scalar K] {path : Path K}

/-- The increments whose parameter is not less than the start but less than the stop. -/
def inRange (path : Path K) (start stop : K) :
    List (LieElement.Shaped K path.width path.depth) :=
  ((path.parameters.toList.zip path.increments.toList).filter fun entry =>
    !Scalar.less entry.1 start && Scalar.less entry.1 stop).map Prod.snd

theorem size_increments_of_ofData? {width depth : Nat} {parameters values : List K}
    (h : ofData? width depth parameters values = .ok path) :
    path.increments.size = path.parameters.size := by
  obtain ⟨-, -, -, cutOff, hlength, -, rfl⟩ := ofData?_eq_ok_iff.1 h
  simp [ofRows]

/-- The product of elements of one algebra is never refused. -/
theorem foldlM_product? {width : Nat} {depth : Depth}
    (increments : List (LieElement.Shaped K width depth)) (x : LieElement.Shaped K width depth) :
    increments.foldlM (fun product increment => product.product? increment.val) x.val =
      .ok (increments.foldl LieElement.Shaped.product x).val := by
  induction increments generalizing x with
  | nil => rfl
  | cons increment increments ih =>
    rw [List.foldlM_cons, LieElement.Shaped.product?_eq, List.foldl_cons]
    exact ih (x.product increment)

variable [WeaklyOrdered K]

/-- What bisection cuts out are the increments in range. -/
theorem selection_eq_inRange (h : path.Sorted)
    (hsize : path.increments.size = path.parameters.size) (start stop : K) :
    path.selection start stop = path.inRange start stop := by
  have hbound : ∀ bound : K, ∀ i (hi : i < path.parameters.size),
      Scalar.less path.parameters[i] bound = true ↔
        i < partitionPoint path.parameters fun p => Scalar.less p bound :=
    fun bound i hi => (lt_partitionPoint_iff (passesFirst_less h bound) hi).symm
  rw [selection, inRange, filter_eq_drop_take
    (partitionPoint path.parameters fun p => Scalar.less p start)
    (max (partitionPoint path.parameters fun p => Scalar.less p start)
      (partitionPoint path.parameters fun p => Scalar.less p stop))]
  · rw [List.map_drop, List.map_take, List.map_snd_zip (by simp [hsize]), Array.toList_extract,
      List.extract_eq_take_drop, List.drop_take]
  · intro i hi
    have hi : i < path.parameters.size := by
      rw [List.length_zip] at hi
      exact (lt_min_iff.1 hi).1
    have hstart := hbound start i hi
    have hstop := hbound stop i hi
    simp only [List.getElem_zip, Array.getElem_toList, Bool.and_eq_true, Bool.not_eq_true',
      ← Bool.not_eq_true, hstart, hstop]
    omega

end Scalars

/-- On a path that is built from data, whatever doubles the bounds are: both bisections end within
the path, in order; between them are the increments in range, in the order of the path; and the
log-signature is their product from left to right, which is not refused. Where bounds are in order,
the increments of the longer range are those of one part and then those of the other. -/
theorem log_signature_half_open {width depth : Nat} {parameters values : List Float}
    {path : Path Float} (h : ofData? width depth parameters values = .ok path) :
    path.increments.size = path.parameters.size ∧
    (∀ start stop : Float,
      let first := partitionPoint path.parameters fun p => decide (p < start)
      let last := max first (partitionPoint path.parameters fun p => decide (p < stop))
      first ≤ last ∧ last ≤ path.increments.size ∧
      (path.increments.extract first last).toList = path.inRange start stop ∧
      (path.inRange start stop).foldlM
        (fun (product : LieElement Float) (increment : LieElement.Shaped Float _ _) =>
          product.product? increment.val) (.zero path.width path.depth) =
        .ok (path.logSignature start stop)) ∧
    ∀ a b c : Float, a ≤ b → b ≤ c →
      path.inRange a c = path.inRange a b ++ path.inRange b c := by
  have hsorted := ofData?_sorted h
  have hsize := size_increments_of_ofData? h
  refine ⟨hsize, ?_, ?_⟩
  · intro start stop first last
    have hselection := selection_eq_inRange hsorted hsize start stop
    refine ⟨Nat.le_max_left _ _, ?_, hselection, ?_⟩
    · rw [hsize]
      exact max_le (partitionPoint_le_size _ _) (partitionPoint_le_size _ _)
    · rw [← hselection]
      exact foldlM_product? _ LieElement.Shaped.zero
  · intro a b c hab hbc
    rw [← selection_eq_inRange hsorted hsize, ← selection_eq_inRange hsorted hsize,
      ← selection_eq_inRange hsorted hsize]
    exact (selection_append hsorted (decide_eq_true hab) (decide_eq_true hbc)).symm

/-- Two increments stand at the cut, and both fall to the right part. No increment is between bounds
that are the wrong way round, and a start that is no number is before all of them. -/
theorem log_signature_half_open_at_repeated_parameter :
    ∃ path : Path Float, ofData? 1 1 [0, 0.5, 0.5, 1] [1, 2, 4, 8] = .ok path ∧
      path.inRange 0 2 = path.inRange 0 0.5 ++ path.inRange 0.5 2 ∧
      (path.logSignature 0 0.5).letters = [1] ∧ (path.logSignature 0.5 2).letters = [14] ∧
      (path.increments.extract 4 4).toList = path.inRange 2 0 ∧
      (path.logSignature (0 / 0) 1).letters = [7] := by
  let path : Path Float := ofRows 1 .one [0, 0.5, 0.5, 1] [1, 2, 4, 8] rfl
  have hpath : ofData? 1 1 [0, 0.5, 0.5, 1] [1, 2, 4, 8] = .ok path :=
    ofData?_eq_ok_iff.2 ⟨by decide, by decide +kernel, by decide +kernel, .one, rfl, rfl, rfl⟩
  have hfirst : (partitionPoint path.parameters fun p => decide (p < 2)) = 4 := by decide +kernel
  have hlast : (partitionPoint path.parameters fun p => decide (p < 0)) = 0 := by decide +kernel
  obtain ⟨-, hrange, happend⟩ := log_signature_half_open hpath
  have hinverted := (hrange 2 0).2.2.1
  rw [hfirst, hlast] at hinverted
  exact ⟨path, hpath, happend 0 0.5 2 (by decide +kernel) (by decide +kernel), by decide +kernel,
    by decide +kernel, hinverted, by decide +kernel⟩

end Path

end SignatureCache
