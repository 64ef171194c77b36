import ElCache.Availability
import ElCache.Lib.Runs

/-!
# The ranges of a partial value

`missing_ranges`, `available_ranges`, `available_bytes` and `has_range` are four loops over the same
chunk flags. Both lists of ranges are the maximal runs of a set of bytes: of those a range asks for
in missing chunks (`isRuns_missingRanges`), and of those in available ones
(`isRuns_availableRanges`). `Fits` is what the loops need of a record so that no chunk boundary
leaves the 64-bit range.
-/

namespace ElCache

open Slice Runs

/-- The bytes of a range, as a half-open interval. -/
def Range.span (r : Range) : Nat × Nat := (r.offset, r.offset + r.length)

namespace PartialValue

variable {i : Nat}

/-- One flag for each chunk of the value, and the end of each chunk is a 64-bit number. -/
structure Fits (v : PartialValue) : Prop where
  bound : v.totalSize + chunkSize ≤ 2 ^ 64
  count : v.chunkAvailability.length = blockCount chunkSize v.totalSize

section
variable {v : PartialValue} {r : Range}

/-! ## Missing ranges -/

/-- The missing bytes `[start, stop)` behind those listed so far. -/
theorem isRuns_addMissing {missing : List Range} {S T : Set Nat} {start stop : Nat}
    (h : IsRuns (missing.map Range.span) S) (hbelow : ∀ b ∈ S, b < start) (hlt : start < stop)
    (hstop : stop < 2 ^ 64) (hT : ∀ b, b ∈ T ↔ b ∈ S ∨ (start ≤ b ∧ b < stop)) :
    IsRuns ((addMissing missing start stop).map Range.span) T := by
  have hlen : sub64 stop start = stop - start := sub64_of_le hlt.le hstop
  have hnew : Range.span ⟨start, stop - start⟩ = (start, stop) :=
    congrArg (Prod.mk start) (Nat.add_sub_cancel' hlt.le)
  rcases List.eq_nil_or_concat missing with rfl | ⟨front, last, rfl⟩
  · have hempty : ∀ b, b ∉ S := h.eq_nil_iff.1 rfl
    rw [addMissing, List.getLast?_nil]
    simp only [hlen, List.map_cons, List.map_nil, hnew]
    exact h.snoc hlt (fun b hb => absurd hb (hempty b)) hT
  · rw [List.concat_eq_append, List.map_append, List.map_singleton] at h
    obtain ⟨hle, hgap⟩ := h.last_le hbelow
    have hend : last.endOffset = last.offset + last.length := wrap64_of_lt (by omega)
    rw [addMissing, List.concat_eq_append, List.getLast?_concat]
    simp only [hlen, hend, List.dropLast_concat]
    split
    · next hmeet =>
      have hwrap : wrap64 (last.length + (stop - start)) = last.length + (stop - start) :=
        wrap64_of_lt (by omega)
      have hlong : Range.span ⟨last.offset, last.length + (stop - start)⟩ = (last.offset, stop) :=
        congrArg (Prod.mk last.offset) (by simp only; omega)
      rw [hwrap, List.map_append, List.map_singleton, hlong]
      refine IsRuns.extend ?_ hlt hT
      rw [← hmeet]
      exact h
    · next hmeet =>
      simp only [List.map_append, List.map_singleton, hnew]
      have := h.snoc hlt (hgap (by omega)) hT
      simpa only [List.append_assoc] using this

/-- A round of the loop ends at the next chunk boundary, or at the end of the value. -/
theorem Fits.chunkEnd_eq (hv : v.Fits) {current : Nat} (hcur : current < v.totalSize) :
    min (wrap64 (current / chunkSize * chunkSize + chunkSize)) v.totalSize =
      min ((current / chunkSize + 1) * chunkSize) v.totalSize := by
  have hle := Nat.div_mul_le_self current chunkSize
  have hbound := hv.bound
  rw [wrap64_of_lt (by omega), Nat.succ_mul]

/-- The missing bytes of `[o, stop)`. -/
def missingIn (v : PartialValue) (o stop : Nat) : Set Nat :=
  {b | o ≤ b ∧ b < stop ∧ v.hasChunk (b / chunkSize) = false}

theorem mem_missingIn {o stop b : Nat} :
    b ∈ v.missingIn o stop ↔ o ≤ b ∧ b < stop ∧ v.hasChunk (b / chunkSize) = false := Iff.rfl

/-- One round goes on through one chunk, which is missing as a whole or not at all. -/
theorem mem_missingIn_step {o current stop : Nat} (ho : o ≤ current) (hcs : current ≤ stop)
    (hchunk : ∀ b, current ≤ b → b < stop → b / chunkSize = i) (b : Nat) :
    b ∈ v.missingIn o stop ↔
      b ∈ v.missingIn o current ∨ (current ≤ b ∧ b < stop) ∧ v.hasChunk i = false := by
  simp only [mem_missingIn]
  constructor
  · rintro ⟨hob, hbs, hmiss⟩
    rcases Nat.lt_or_ge b current with hb | hb
    · exact .inl ⟨hob, hb, hmiss⟩
    · rw [hchunk b hb hbs] at hmiss
      exact .inr ⟨⟨hb, hbs⟩, hmiss⟩
  · rintro (⟨hob, hb, hmiss⟩ | ⟨⟨hb, hbs⟩, hmiss⟩)
    · exact ⟨hob, lt_of_lt_of_le hb hcs, hmiss⟩
    · rw [← hchunk b hb hbs] at hmiss
      exact ⟨ho.trans hb, hbs, hmiss⟩

/-- The loop body keeps the invariant: the list holds the runs of missing bytes up to `stop`. -/
theorem isRuns_round {missing : List Range} {o current stop : Nat} (ho : o ≤ current)
    (hcs : current < stop) (hstop : stop < 2 ^ 64)
    (hchunk : ∀ b, current ≤ b → b < stop → b / chunkSize = i)
    (hinv : IsRuns (missing.map Range.span) (v.missingIn o current)) :
    IsRuns ((if v.hasChunk i then missing else addMissing missing current stop).map Range.span)
      (v.missingIn o stop) := by
  have hstep := mem_missingIn_step (v := v) ho hcs.le hchunk
  cases hhas : v.hasChunk i with
  | true =>
    refine hinv.congr fun b => ?_
    rw [hstep, hhas]
    simp
  | false =>
    refine isRuns_addMissing hinv (fun b hb => hb.2.1) hcs hstop fun b => ?_
    rw [hstep, hhas]
    simp

/-- The loop of `missing_ranges` from `current` on, with enough fuel to reach `e`: it ends, and with
the runs of missing bytes of `[o, e)` if it starts with those of `[o, current)`. -/
theorem missingRun_spec (hv : v.Fits) {o e : Nat} (he : e ≤ v.totalSize) :
    ∀ (fuel current : Nat) (missing : List Range), o ≤ current →
      (e ≤ current ∨ e ≤ (current / chunkSize + fuel) * chunkSize) →
      IsRuns (missing.map Range.span) (v.missingIn o (min e current)) →
      ∃ l, v.missingRun e fuel current missing = some l ∧
        IsRuns (l.map Range.span) (v.missingIn o e) := by
  intro fuel
  induction fuel with
  | zero =>
    intro current missing ho hfuel hinv
    have hle := Nat.div_mul_le_self current chunkSize
    have hend : e ≤ current := by
      rw [Nat.add_zero] at hfuel
      omega
    rw [Nat.min_eq_left hend] at hinv
    exact ⟨missing, if_neg (by omega), hinv⟩
  | succ fuel ih =>
    intro current missing ho hfuel hinv
    rw [missingRun]
    split
    · next hcur =>
      have hpos := chunkSize_pos
      have hstart := Nat.div_mul_le_self current chunkSize
      have hnext : current < (current / chunkSize + 1) * chunkSize := by
        rw [← Nat.div_lt_iff_lt_mul hpos]
        exact Nat.lt_succ_self _
      have hbound : e < 2 ^ 64 := by
        have := hv.bound
        omega
      have hdiv : ∀ b, current ≤ b → b < (current / chunkSize + 1) * chunkSize →
          b / chunkSize = current / chunkSize := fun b hb hbs =>
        Nat.div_eq_of_lt_le (hstart.trans hb) hbs
      simp only [hv.chunkEnd_eq (lt_of_lt_of_le hcur he), Nat.max_eq_left hstart]
      rw [Nat.min_eq_right hcur.le] at hinv
      generalize hq : (current / chunkSize + 1) * chunkSize = next at *
      refine ih (min next v.totalSize) _ (by omega) ?_ ?_
      · -- either the value ends here or a whole chunk has been passed
        rcases Nat.le_total v.totalSize next with hlast | hfull
        · left
          omega
        · right
          rw [Nat.min_eq_left hfull, ← hq, Nat.mul_div_cancel _ hpos]
          rcases hfuel with h | h
          · omega
          · exact h.trans (Nat.mul_le_mul_right _ (by omega))
      · have hmin : min e (min next v.totalSize) = min e next := by omega
        rw [hmin]
        exact isRuns_round ho (by omega) (by omega) (fun b hb hbs => hdiv b hb (by omega)) hinv
    · next hcur =>
      rw [Nat.min_eq_left (by omega)] at hinv
      exact ⟨missing, rfl, hinv⟩

/-- More rounds than the loop takes do not change its result. -/
theorem missingRun_of_le {e : Nat} : ∀ {fuel more current : Nat} {missing l : List Range},
    v.missingRun e fuel current missing = some l → fuel ≤ more →
      v.missingRun e more current missing = some l := by
  intro fuel
  induction fuel with
  | zero =>
    intro more current missing l h hle
    rw [missingRun] at h
    split at h
    · cases h
    · next hcur =>
      cases more with
      | zero => rw [missingRun, if_neg hcur, h]
      | succ more => rw [missingRun, if_neg hcur, h]
  | succ fuel ih =>
    intro more current missing l h hle
    cases more with
    | zero => omega
    | succ more =>
      rw [missingRun] at h ⊢
      split at h
      · next hcur =>
        rw [if_pos hcur]
        exact ih h (by omega)
      · next hcur => rw [if_neg hcur, h]

/-- Where the loop ends within its fuel, this is its result. -/
theorem missingLoop_eq {e : Nat} : ∀ {fuel current : Nat} {missing l : List Range},
    v.missingRun e fuel current missing = some l → v.missingLoop e fuel current missing = l := by
  intro fuel
  induction fuel with
  | zero =>
    intro current missing l h
    rw [missingRun] at h
    split at h
    · cases h
    · cases h
      rfl
  | succ fuel ih =>
    intro current missing l h
    rw [missingRun] at h
    rw [missingLoop]
    split at h
    · next hcur =>
      rw [if_pos hcur]
      exact ih h
    · next hcur =>
      rw [if_neg hcur]
      cases h
      rfl

/-- `missing_ranges` with at most `fuel` rounds of its loop; `none` if that is not enough. -/
def missingRangesWithin (v : PartialValue) (fuel : Nat) (range : Range) : Option (List Range) :=
  if range.length = 0 ∨ v.totalSize ≤ range.offset then some []
  else v.missingRun (min range.endOffset v.totalSize) fuel range.offset []

/-- `missing_ranges` ends within one round per chunk and gives the runs of missing bytes from the
offset to the end the code computes, which may have wrapped. -/
theorem missingRanges_spec (hv : v.Fits) (hr : r.length ≠ 0) :
    (∀ fuel, v.chunkAvailability.length ≤ fuel →
      v.missingRangesWithin fuel r = some (v.missingRanges r)) ∧
    IsRuns ((v.missingRanges r).map Range.span)
      (v.missingIn r.offset (min r.endOffset v.totalSize)) := by
  unfold missingRangesWithin missingRanges
  split
  · next h =>
    refine ⟨fun _ _ => rfl, isRuns_nil fun b hb => ?_⟩
    rw [mem_missingIn] at hb
    omega
  · next h =>
    have hpos := chunkSize_pos
    have hle : min r.endOffset v.totalSize ≤ v.totalSize := Nat.min_le_right _ _
    generalize min r.endOffset v.totalSize = e at *
    have hinit : IsRuns (([] : List Range).map Range.span)
        (v.missingIn r.offset (min e r.offset)) :=
      isRuns_nil fun b hb => by
        rw [mem_missingIn] at hb
        omega
    -- any number of rounds that covers the chunks up to `e` is enough
    have hspec : ∀ fuel, e ≤ fuel * chunkSize → ∃ l, v.missingRun e fuel r.offset [] = some l ∧
        IsRuns (l.map Range.span) (v.missingIn r.offset e) := fun fuel hfuel =>
      missingRun_spec hv hle fuel r.offset [] le_rfl
        (.inr (hfuel.trans (Nat.mul_le_mul_right _ (Nat.le_add_left _ _)))) hinit
    have hown : e ≤ (e / chunkSize + 1) * chunkSize :=
      ((Nat.div_lt_iff_lt_mul hpos).1 (Nat.lt_succ_self _)).le
    have hcount : e ≤ v.chunkAvailability.length * chunkSize := by
      have := lt_blockCount (n := v.totalSize) (i := v.chunkAvailability.length) hpos
      rw [hv.count] at this ⊢
      omega
    obtain ⟨l, hl, hruns⟩ := hspec _ hown
    rw [missingLoop_eq hl]
    refine ⟨fun fuel hfuel => ?_, hruns⟩
    obtain ⟨l', hl', -⟩ := hspec _ hcount
    have hmore := missingRun_of_le hl' hfuel
    rcases Nat.le_total fuel (e / chunkSize + 1) with h | h
    · rw [hmore, ← hl, missingRun_of_le hmore h]
    · exact missingRun_of_le hl h

/-! ## Available ranges -/

/-- The bytes of the value in the chunks from index `i` on that the flags mark. -/
def flagged (totalSize i : Nat) (flags : List Bool) : Set Nat :=
  {b | i ≤ b / chunkSize ∧ b < totalSize ∧ flags.getD (b / chunkSize - i) false = true}

theorem bounds_of_mem_flagged {n b : Nat} {flags : List Bool} (h : b ∈ flagged n i flags) :
    i ≤ b / chunkSize ∧ b < n := ⟨h.1, h.2.1⟩

theorem mem_flagged_nil {n b : Nat} : b ∉ flagged n i [] := by
  rintro ⟨-, -, h⟩
  exact Bool.noConfusion h

/-- The bytes of flagged chunks, flag by flag. -/
theorem mem_flagged_cons {n b : Nat} {flag : Bool} {rest : List Bool} :
    b ∈ flagged n i (flag :: rest) ↔
      (b / chunkSize = i ∧ b < n ∧ flag = true) ∨ b ∈ flagged n (i + 1) rest := by
  simp only [flagged, Set.mem_ofPred_eq]
  generalize b / chunkSize = q
  rcases Nat.lt_trichotomy q i with h | rfl | h
  · have : ¬ i ≤ q := by omega
    have : ¬ i + 1 ≤ q := by omega
    have : q ≠ i := by omega
    simp [*]
  · simp
  · obtain ⟨k, rfl⟩ := Nat.exists_eq_add_of_lt h
    have hk : i + k + 1 - i = k + 1 := by omega
    have hk' : i + k + 1 - (i + 1) = k := by omega
    rw [hk, hk', List.getD_cons_succ]
    simp only [show i ≤ i + k + 1 by omega, show i + 1 ≤ i + k + 1 by omega,
      show i + k + 1 ≠ i by omega, true_and, false_and, false_or]

section
variable {n : Nat}

/-- The boundaries of the chunks of a value. -/
theorem boundary_lt (hn : n + chunkSize ≤ 2 ^ 64) (hi : i ≤ blockCount chunkSize n) :
    i * chunkSize < 2 ^ 64 := by
  cases i with
  | zero =>
    rw [Nat.zero_mul]
    exact Nat.two_pow_pos 64
  | succ i =>
    have := (lt_blockCount chunkSize_pos).1 (Nat.lt_of_succ_le hi)
    rw [Nat.succ_mul]
    omega

theorem div_lt_blockCount {b : Nat} (hb : b < n) : b / chunkSize < blockCount chunkSize n := by
  rw [lt_blockCount chunkSize_pos]
  exact lt_of_le_of_lt (Nat.div_mul_le_self _ _) hb

theorem run_nonempty {j : Nat} (hji : j < i) (hi : i ≤ blockCount chunkSize n) :
    j * chunkSize < min (i * chunkSize) n := by
  have hj : j * chunkSize < n := (lt_blockCount chunkSize_pos).1 (by omega)
  have hji : j * chunkSize < i * chunkSize := Nat.mul_lt_mul_of_pos_right hji chunkSize_pos
  omega

/-- The length of a run from chunk `j` that is closed at chunk `i`. -/
theorem length_run (hn : n + chunkSize ≤ 2 ^ 64) {j : Nat} (hji : j < i)
    (hi : i ≤ blockCount chunkSize n) :
    sub64 (min (wrap64 (i * chunkSize)) n) (j * chunkSize) =
      min (i * chunkSize) n - j * chunkSize := by
  have hlt := boundary_lt hn hi
  rw [wrap64_of_lt hlt, sub64_of_le (run_nonempty hji hi).le (by omega)]

/-- The range of such a run. -/
theorem span_run (hn : n + chunkSize ≤ 2 ^ 64) {j : Nat} (hji : j < i)
    (hi : i ≤ blockCount chunkSize n) :
    Range.span ⟨j * chunkSize, sub64 (min (wrap64 (i * chunkSize)) n) (j * chunkSize)⟩ =
      (j * chunkSize, min (i * chunkSize) n) := by
  rw [length_run hn hji hi]
  exact congrArg (Prod.mk _) (Nat.add_sub_cancel' (run_nonempty hji hi).le)

/-- The loop of `available_ranges` from chunk `i` on, without an open run and with one that began at
chunk `j`. -/
theorem availableLoop_spec (hn : n + chunkSize ≤ 2 ^ 64) : ∀ (flags : List Bool) (i : Nat),
    i + flags.length = blockCount chunkSize n →
    IsRuns ((availableLoop n flags i none).map Range.span) (flagged n i flags) ∧
    ∀ j < i, IsRuns ((availableLoop n flags i (some (j * chunkSize))).map Range.span)
      {b | j ≤ b / chunkSize ∧ b < n ∧ (b / chunkSize < i ∨ b ∈ flagged n i flags)} := by
  have hpos := chunkSize_pos
  intro flags
  induction flags with
  | nil =>
    intro i hcount
    rw [List.length_nil, Nat.add_zero] at hcount
    refine ⟨isRuns_nil fun b => mem_flagged_nil, fun j hj => ?_⟩
    have hend : min (i * chunkSize) n = n := by
      have := mt (lt_blockCount (n := n) (i := i) hpos).2 (by omega)
      omega
    have hlt := run_nonempty hj hcount.le
    rw [availableLoop, List.map_singleton, span_run hn hj hcount.le, hend]
    rw [hend] at hlt
    refine (isRuns_nil (S := ∅) fun b hb => hb).cons hlt (fun b hb => hb.elim) fun b => ?_
    have hb := @div_lt_blockCount n b
    simp only [Set.mem_ofPred_eq, mem_flagged_nil, Set.mem_empty_iff_false, or_false,
      ← Nat.le_div_iff_mul_le hpos]
    omega
  | cons flag rest ih =>
    intro i hcount
    rw [List.length_cons] at hcount
    obtain ⟨hnone, hsome⟩ := ih (i + 1) (by omega)
    have hwrap : wrap64 (i * chunkSize) = i * chunkSize := wrap64_of_lt (boundary_lt hn (by omega))
    cases flag with
    | true =>
      refine ⟨?_, fun j hj => ?_⟩
      · rw [availableLoop, Option.getD_none, hwrap]
        refine (hsome i (Nat.lt_succ_self i)).congr fun b => ?_
        have hrest : b ∈ flagged n (i + 1) rest → _ := bounds_of_mem_flagged
        simp only [Set.mem_ofPred_eq, mem_flagged_cons]
        grind
      · rw [availableLoop, Option.getD_some]
        refine (hsome j (by omega)).congr fun b => ?_
        simp only [Set.mem_ofPred_eq, mem_flagged_cons]
        grind
    | false =>
      have hrest : ∀ b, b ∈ flagged n (i + 1) rest ↔ b ∈ flagged n i (false :: rest) := by
        intro b
        rw [mem_flagged_cons]
        simp
      refine ⟨hnone.congr hrest, fun j hj => ?_⟩
      have hlt := run_nonempty (n := n) hj (by omega)
      have hi : i * chunkSize < n := (lt_blockCount hpos).1 (by omega)
      have hend : min (i * chunkSize) n = i * chunkSize := Nat.min_eq_left hi.le
      rw [availableLoop, List.map_cons, span_run hn hj (by omega), hend]
      rw [hend] at hlt
      refine hnone.cons hlt (fun b hb => ?_) fun b => ?_
      · have hle : (i + 1) * chunkSize ≤ b := (Nat.le_div_iff_mul_le hpos).1 hb.1
        rw [Nat.succ_mul] at hle
        omega
      · simp only [Set.mem_ofPred_eq, ← hrest, ← Nat.le_div_iff_mul_le hpos,
          ← Nat.div_lt_iff_lt_mul hpos]
        have : b / chunkSize < i → b < n := fun h =>
          lt_trans ((Nat.div_lt_iff_lt_mul hpos).1 h) hi
        have hrest : b ∈ flagged n (i + 1) rest → _ := bounds_of_mem_flagged
        grind

/-- The sum of the lengths of the ranges. -/
def totalLength (l : List Range) : Nat := (l.map Range.length).sum

theorem totalLength_nil : totalLength [] = 0 := rfl

theorem totalLength_cons (r : Range) (l : List Range) :
    totalLength (r :: l) = r.length + totalLength l := by
  simp only [totalLength, List.map_cons, List.sum_cons]

/-- The size of chunk `i` as `available_bytes` computes it. -/
theorem chunkBytes_eq (hn : n + chunkSize ≤ 2 ^ 64) (hi : i < blockCount chunkSize n) :
    (if i = blockCount chunkSize n - 1 then sub64 n (wrap64 (i * chunkSize)) else chunkSize) =
      min ((i + 1) * chunkSize) n - i * chunkSize := by
  have hpos := chunkSize_pos
  have hlt : i * chunkSize < n := (lt_blockCount hpos).1 hi
  have hnext := lt_blockCount (n := n) (i := i + 1) hpos
  rw [wrap64_of_lt (by omega), sub64_of_le hlt.le (by omega)]
  split
  · rw [Nat.min_eq_right (by omega)]
  · rw [Nat.min_eq_left (by omega), Nat.succ_mul, Nat.add_sub_cancel_left]

/-- The loop of `available_bytes` counts what the loop of `available_ranges` lists. -/
theorem availableBytesLoop_eq (hn : n + chunkSize ≤ 2 ^ 64) :
    ∀ (flags : List Bool) (i bytes : Nat), i + flags.length = blockCount chunkSize n →
    bytes ≤ min (i * chunkSize) n →
    availableBytesLoop n (blockCount chunkSize n) flags i bytes =
      bytes + totalLength (availableLoop n flags i none) ∧
    ∀ j < i, availableBytesLoop n (blockCount chunkSize n) flags i bytes +
        (min (i * chunkSize) n - j * chunkSize) =
      bytes + totalLength (availableLoop n flags i (some (j * chunkSize))) := by
  have hn64 : n < 2 ^ 64 := lt_of_lt_of_le (Nat.lt_add_of_pos_right chunkSize_pos) hn
  intro flags
  induction flags with
  | nil =>
    intro i bytes hcount hbytes
    rw [List.length_nil, Nat.add_zero] at hcount
    refine ⟨rfl, fun j hj => ?_⟩
    rw [availableBytesLoop, availableLoop, totalLength_cons, length_run hn hj hcount.le,
      totalLength_nil, Nat.add_zero]
  | cons flag rest ih =>
    intro i bytes hcount hbytes
    rw [List.length_cons] at hcount
    have hlt : i < blockCount chunkSize n := by omega
    have hi : i * chunkSize < n := (lt_blockCount chunkSize_pos).1 hlt
    have hnext : i * chunkSize ≤ (i + 1) * chunkSize := Nat.mul_le_mul_right _ (Nat.le_succ i)
    rw [Nat.min_eq_left hi.le] at hbytes ⊢
    cases flag with
    | true =>
      have hsum : bytes + (min ((i + 1) * chunkSize) n - i * chunkSize) ≤
          min ((i + 1) * chunkSize) n := by omega
      have hwrap : wrap64 (bytes + (min ((i + 1) * chunkSize) n - i * chunkSize)) =
          bytes + (min ((i + 1) * chunkSize) n - i * chunkSize) :=
        wrap64_of_lt (lt_of_le_of_lt (hsum.trans (Nat.min_le_right _ _)) hn64)
      have hfirst : wrap64 (i * chunkSize) = i * chunkSize := wrap64_of_lt (hi.trans hn64)
      obtain ⟨-, hsome⟩ := ih (i + 1) _ (by omega) hsum
      rw [availableBytesLoop, chunkBytes_eq hn hlt, hwrap]
      clear hn hn64 hwrap
      refine ⟨?_, fun j hj => ?_⟩
      · have hrun := hsome i (Nat.lt_succ_self i)
        rw [availableLoop, Option.getD_none, hfirst]
        omega
      · have hrun := hsome j (by omega)
        have hj : j * chunkSize ≤ i * chunkSize := Nat.mul_le_mul_right _ hj.le
        rw [availableLoop, Option.getD_some]
        omega
    | false =>
      obtain ⟨hnone, -⟩ := ih (i + 1) bytes (by omega) (by omega)
      have hmin : min (i * chunkSize) n = i * chunkSize := Nat.min_eq_left hi.le
      refine ⟨hnone, fun j hj => ?_⟩
      rw [availableBytesLoop, availableLoop, totalLength_cons, length_run hn hj hlt.le, hnone, hmin,
        Nat.add_assoc]
      exact congrArg (bytes + ·) (Nat.add_comm _ _)

end

/-- The available bytes of the value. -/
def availableIn (v : PartialValue) : Set Nat :=
  {b | b < v.totalSize ∧ v.hasChunk (b / chunkSize) = true}

/-- `available_ranges` gives the runs of available bytes. -/
theorem isRuns_availableRanges (hv : v.Fits) :
    IsRuns (v.availableRanges.map Range.span) v.availableIn := by
  have h := (availableLoop_spec hv.bound v.chunkAvailability 0
    ((Nat.zero_add _).trans hv.count)).1
  refine h.congr fun b => ?_
  simp only [flagged, availableIn, hasChunk, Set.mem_ofPred_eq, Nat.zero_le, true_and, Nat.sub_zero]

/-- `available_bytes` is the number of bytes in the ranges of `available_ranges`. -/
theorem availableBytes_eq (hv : v.Fits) : v.availableBytes = totalLength v.availableRanges := by
  have h := (availableBytesLoop_eq hv.bound v.chunkAvailability 0 0
    ((Nat.zero_add _).trans hv.count) (Nat.zero_le _)).1
  rw [Nat.zero_add, ← hv.count] at h
  exact h

/-! ## Whole ranges -/

/-- `missing_ranges` of a range whose end does not wrap. -/
theorem isRuns_missingRanges (hv : v.Fits) (hr : r.offset + r.length < 2 ^ 64) :
    (∀ fuel, v.chunkAvailability.length ≤ fuel →
      v.missingRangesWithin fuel r = some (v.missingRanges r)) ∧
    IsRuns ((v.missingRanges r).map Range.span)
      (v.missingIn r.offset (min (r.offset + r.length) v.totalSize)) := by
  have hend : r.endOffset = r.offset + r.length := wrap64_of_lt hr
  rcases Nat.eq_zero_or_pos r.length with h0 | hpos
  · have hnil : v.missingRanges r = [] := if_pos (.inl h0)
    rw [hnil]
    refine ⟨fun _ _ => if_pos (.inl h0), isRuns_nil fun b hb => ?_⟩
    rw [mem_missingIn] at hb
    omega
  · rw [← hend]
    exact missingRanges_spec hv hpos.ne'

/-- `has_range` is true exactly if no byte of the range is missing. -/
theorem hasRange_iff (hpos : 0 < r.length) (hin : r.offset < v.totalSize)
    (hr : r.offset + r.length < 2 ^ 64) :
    v.hasRange r = true ↔
      ∀ b, b ∉ v.missingIn r.offset (min (r.offset + r.length) v.totalSize) := by
  have hend : r.endOffset = r.offset + r.length := wrap64_of_lt hr
  have hoe : r.offset < min (r.offset + r.length) v.totalSize := by omega
  rw [hasRange, if_neg hpos.ne', if_neg (by omega)]
  simp only [hend, if_pos (Nat.zero_lt_of_lt hoe), List.all_eq_true]
  generalize min (r.offset + r.length) v.totalSize = e at *
  constructor
  · rintro hall b ⟨hob, hbe, hmiss⟩
    have hb : b / chunkSize ∈ touched chunkSize r.offset e := by
      rw [touched, List.mem_range'_1]
      have := Nat.div_le_div_right (c := chunkSize) hob
      have : b / chunkSize ≤ (e - 1) / chunkSize := Nat.div_le_div_right (by omega)
      omega
    rw [hall _ hb] at hmiss
    exact Bool.noConfusion hmiss
  · -- the first byte of chunk `i` inside the range shows that the chunk is there
    intro hall i hi
    obtain ⟨hlo, hhi⟩ := (mem_touched chunkSize_pos hoe).1 hi
    have hdiv : max r.offset (i * chunkSize) / chunkSize = i :=
      Nat.div_eq_of_lt_le (Nat.le_max_right _ _)
        (max_lt hhi (Nat.mul_lt_mul_of_pos_right (Nat.lt_succ_self i) chunkSize_pos))
    by_contra hmiss
    refine hall (max r.offset (i * chunkSize)) ⟨Nat.le_max_left _ _, max_lt hoe hlo, ?_⟩
    rw [hdiv]
    exact Bool.eq_false_iff.2 hmiss

end

/-! ## Marking -/

/-- A call that changes the record. -/
inductive Mark where
  | available (index : Nat) (id : ChunkId)
  | unavailable (index : Nat)

namespace Mark

def index : Mark → Nat
  | available index _ => index
  | unavailable index => index

def isAvailable : Mark → Bool
  | available _ _ => true
  | unavailable _ => false

/-- What the last call for a chunk said; nothing is available before the first. -/
def last (marks : List Mark) (i : Nat) : Bool :=
  marks.foldl (fun flag m => if m.index = i then m.isAvailable else flag) false

end Mark

/-- The effect of a call. -/
def mark (v : PartialValue) : Mark → PartialValue
  | .available index id => v.markChunkAvailable index id
  | .unavailable index => v.markChunkUnavailable index

/-- The record of a value after a sequence of calls. -/
def marked (d : ValueDescriptor) (marks : List Mark) : PartialValue :=
  marks.foldl mark (ofDescriptor d)

section
variable (v : PartialValue) (m : Mark)

@[simp] theorem totalSize_mark : (v.mark m).totalSize = v.totalSize := by
  cases m <;> simp only [mark, markChunkAvailable, markChunkUnavailable] <;> split <;> rfl

/-- A call sets the flag of its chunk, if there is one. -/
theorem chunkAvailability_mark :
    (v.mark m).chunkAvailability = v.chunkAvailability.set m.index m.isAvailable := by
  cases m <;>
    simp only [mark, markChunkAvailable, markChunkUnavailable, Mark.index, Mark.isAvailable] <;>
    split
  all_goals first
    | rfl
    | (next h => rw [List.set_eq_of_length_le h])

theorem hasChunk_mark (hi : i < v.chunkAvailability.length) :
    (v.mark m).hasChunk i = if m.index = i then m.isAvailable else v.hasChunk i := by
  rw [hasChunk, hasChunk, chunkAvailability_mark, List.getD_eq_getElem?_getD,
    List.getD_eq_getElem?_getD, List.getElem?_set]
  split
  · next h => rw [h, if_pos hi, Option.getD_some]
  · rfl

/-- A call keeps the shape of the record. -/
theorem Fits.mark {v : PartialValue} (hv : v.Fits) : (v.mark m).Fits := by
  refine ⟨?_, ?_⟩
  · rw [totalSize_mark]
    exact hv.bound
  · rw [chunkAvailability_mark, List.length_set, totalSize_mark, hv.count]

end

/-- After a sequence of calls the flag of a chunk is what the last call for it said. -/
theorem foldl_mark (marks : List Mark) : ∀ v : PartialValue, v.Fits →
    (marks.foldl mark v).Fits ∧ (marks.foldl mark v).totalSize = v.totalSize ∧
    ∀ i < v.chunkAvailability.length, (marks.foldl mark v).hasChunk i =
      marks.foldl (fun flag m => if m.index = i then m.isAvailable else flag) (v.hasChunk i) := by
  induction marks with
  | nil => exact fun v hv => ⟨hv, rfl, fun _ _ => rfl⟩
  | cons m marks ih =>
    intro v hv
    obtain ⟨hfits, htotal, hflags⟩ := ih (v.mark m) (hv.mark m)
    refine ⟨hfits, htotal.trans (v.totalSize_mark m), fun i hi => ?_⟩
    rw [List.foldl_cons, List.foldl_cons, ← v.hasChunk_mark m hi]
    refine hflags i ?_
    rwa [chunkAvailability_mark, List.length_set]

/-- The end of the last chunk of an admissible value is a 64-bit number. -/
theorem end_le_of_le_maxValueSize {n : Nat} (h : n ≤ maxValueSize) : n + chunkSize ≤ 2 ^ 64 := by
  have hmax : maxValueSize ≤ 2 ^ 63 := by decide
  have hchunk := chunkSize_le
  omega

theorem hasChunk_ofDescriptor (d : ValueDescriptor) (i : Nat) :
    (ofDescriptor d).hasChunk i = false := by
  rw [hasChunk, ofDescriptor, List.getD_eq_getElem?_getD, List.getElem?_replicate]
  split <;> rfl

section
variable {d : ValueDescriptor} (hbound : d.totalSize + chunkSize ≤ 2 ^ 64)
  (hcount : d.chunks.length = blockCount chunkSize d.totalSize)
include hbound hcount

theorem fits_ofDescriptor : (ofDescriptor d).Fits := by
  refine ⟨hbound, ?_⟩
  show (List.replicate d.chunks.length false).length = _
  rw [List.length_replicate, hcount]
  rfl

theorem marked_spec (marks : List Mark) :
    (marked d marks).Fits ∧ (marked d marks).totalSize = d.totalSize ∧
    ∀ b < d.totalSize, (marked d marks).hasChunk (b / chunkSize) =
      Mark.last marks (b / chunkSize) := by
  obtain ⟨hfits, htotal, hflags⟩ := foldl_mark marks _ (fits_ofDescriptor hbound hcount)
  refine ⟨hfits, htotal, fun b hb => ?_⟩
  rw [marked, hflags _ ?_, hasChunk_ofDescriptor, Mark.last]
  rw [(fits_ofDescriptor hbound hcount).count]
  exact div_lt_blockCount hb

end

/-- The four loops describe one set of bytes. Of any range that ends in the 64-bit numbers,
`missing_ranges` gives the maximal runs of bytes whose chunk was last marked unavailable or never
marked, within one round per chunk; `available_ranges` gives the runs of all others; together they
are the value, without overlap; `available_bytes` counts the second, and `has_range` says that the
first is empty. -/
theorem partialValue_partitions {d : ValueDescriptor} (hsize : d.totalSize ≤ maxValueSize)
    (hcount : d.chunks.length = blockCount chunkSize d.totalSize) (marks : List Mark) :
    (∀ r : Range, r.offset + r.length < 2 ^ 64 →
      (∀ fuel, d.chunks.length ≤ fuel →
        (marked d marks).missingRangesWithin fuel r = some ((marked d marks).missingRanges r)) ∧
      IsRuns (((marked d marks).missingRanges r).map Range.span)
        {b | r.offset ≤ b ∧ b < min (r.offset + r.length) d.totalSize ∧
          Mark.last marks (b / chunkSize) = false} ∧
      (0 < r.length → r.offset < d.totalSize →
        ((marked d marks).hasRange r = true ↔ (marked d marks).missingRanges r = []))) ∧
    IsRuns ((marked d marks).availableRanges.map Range.span)
      {b | b < d.totalSize ∧ Mark.last marks (b / chunkSize) = true} ∧
    (∀ b, (b < d.totalSize ↔ Covers ((marked d marks).availableRanges.map Range.span) b ∨
        Covers (((marked d marks).missingRanges ⟨0, d.totalSize⟩).map Range.span) b) ∧
      ¬ (Covers ((marked d marks).availableRanges.map Range.span) b ∧
        Covers (((marked d marks).missingRanges ⟨0, d.totalSize⟩).map Range.span) b)) ∧
    (marked d marks).availableBytes =
      ((marked d marks).availableRanges.map Range.length).sum := by
  obtain ⟨hfits, htotal, hflags⟩ := marked_spec (end_le_of_le_maxValueSize hsize) hcount marks
  have hlength : (marked d marks).chunkAvailability.length = d.chunks.length := by
    rw [hfits.count, htotal, hcount]
  have hmissing : ∀ r : Range, ∀ b, b ∈ (marked d marks).missingIn r.offset
      (min (r.offset + r.length) (marked d marks).totalSize) ↔
      b ∈ {b | r.offset ≤ b ∧ b < min (r.offset + r.length) d.totalSize ∧
        Mark.last marks (b / chunkSize) = false} := by
    intro r b
    rw [mem_missingIn, htotal, Set.mem_ofPred_eq]
    refine and_congr_right fun _ => and_congr_right fun hb => ?_
    rw [hflags b (lt_of_lt_of_le hb (Nat.min_le_right _ _))]
  have havail : IsRuns ((marked d marks).availableRanges.map Range.span)
      {b | b < d.totalSize ∧ Mark.last marks (b / chunkSize) = true} := by
    refine (isRuns_availableRanges hfits).congr fun b => ?_
    rw [availableIn, Set.mem_ofPred_eq, htotal, Set.mem_ofPred_eq]
    refine and_congr_right fun hb => ?_
    rw [hflags b hb]
  have hruns : ∀ r : Range, r.offset + r.length < 2 ^ 64 → _ := fun r hr =>
    (isRuns_missingRanges hfits (r := r) hr).2.congr (hmissing r)
  refine ⟨fun r hr => ⟨?_, hruns r hr, fun hpos hin => ?_⟩, havail, fun b => ?_, ?_⟩
  · rw [← hlength]
    exact (isRuns_missingRanges hfits hr).1
  · rw [hasRange_iff hpos (htotal ▸ hin) hr, ← (isRuns_missingRanges hfits hr).2.eq_nil_iff,
      List.map_eq_nil_iff]
  · have hwhole := (hruns ⟨0, d.totalSize⟩ (by
      have := maxValueSize_lt
      simp only
      omega)).covers b
    rw [havail.covers, hwhole]
    simp only [Set.mem_ofPred_eq, Nat.zero_le, true_and, Nat.zero_add, Nat.min_self]
    cases Mark.last marks (b / chunkSize) <;> simp
  · exact availableBytes_eq hfits

/-- A value of one full chunk and one byte. -/
def twoChunks : ValueDescriptor where
  key := ⟨[]⟩
  totalSize := chunkSize + 1
  chunks := [⟨⟨0, 0⟩⟩, ⟨⟨1, 1⟩⟩]
  metadata := {}

theorem blockCount_twoChunks : blockCount chunkSize (chunkSize + 1) = 2 := by
  have h : chunkSize + 1 + chunkSize - 1 = 2 * chunkSize := by omega
  rw [blockCount, h, Nat.mul_div_cancel _ chunkSize_pos]

/-- Only the last byte of such a value is available after its second chunk has been marked. -/
theorem partialValue_partitions_twoChunks :
    twoChunks.totalSize ≤ maxValueSize ∧
    twoChunks.chunks.length = blockCount chunkSize twoChunks.totalSize ∧
    IsRuns ((marked twoChunks [.available 1 ⟨⟨1, 1⟩⟩]).availableRanges.map Range.span)
      {b | b < chunkSize + 1 ∧ Mark.last [.available 1 ⟨⟨1, 1⟩⟩] (b / chunkSize) = true} := by
  have hsize : twoChunks.totalSize ≤ maxValueSize := by
    have hmax : 2 ^ 22 + 1 ≤ maxValueSize := by decide
    exact (Nat.succ_le_succ chunkSize_le).trans hmax
  have hcount : twoChunks.chunks.length = blockCount chunkSize twoChunks.totalSize :=
    blockCount_twoChunks.symm
  exact ⟨hsize, hcount, (partialValue_partitions hsize hcount _).2.1⟩

end PartialValue

end ElCache
