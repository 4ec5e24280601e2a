import TypeExprLexer.TokenSource

/-!
Tokens on demand, in any order.

Sources share nothing that changes. What a call gets depends on how often its own source
was called before and on no call to another one: after `m` calls a source gives the token
number `m` of those it had at first (`TokenSource.pulls_eq_mapIdx`). So a schedule over
fresh sources deals out the tokens of each text in their order, and nothing more once
they are used up (`TokenSource.pulls_eq_dealt`).
-/

namespace TypeExprLexer.TokenSource

variable {sources : List TokenSource} {s : TokenSource}

/-- The token that the source number `k` gives after `m` further calls to it. -/
def upcoming (sources : List TokenSource) (k m : Nat) : Option Token :=
  sources[k]?.bind fun s => s.remaining[m]?

/-- What a schedule is dealt from the tokens of the texts: the call on a text that comes
after `m` calls on it gets the token number `m`, if there are so many. -/
def dealt (v : Vocabulary) (texts : List String) (schedule : List Nat) : List (Option Token) :=
  schedule.mapIdx fun i k =>
    texts[k]?.bind fun text => (v.tokenize text)[(schedule.take i).count k]?

/-! ### One call -/

/-- A call takes the first token off its own source and leaves the others as they are. -/
theorem upcoming_set_next {j : Nat} (own : sources[j]? = some s) (k m : Nat) :
    upcoming (sources.set j s.next.2) k m = upcoming sources k (m + [j].count k) := by
  by_cases same : j = k
  · subst same
    obtain ⟨present, rfl⟩ := List.getElem?_eq_some_iff.mp own
    simp [upcoming, present, remaining_next]
  · simp [upcoming, same]

/-- A call to a number without a source changes nothing. -/
theorem upcoming_of_getElem?_eq_none {j : Nat} (missing : sources[j]? = none) (k m : Nat) :
    upcoming sources k m = upcoming sources k (m + [j].count k) := by
  by_cases same : j = k
  · subst same
    simp [upcoming, missing]
  · simp [same]

/-- A source that has nothing to give has nothing to give later either. -/
theorem upcoming_eq_none_of_le {k m n : Nat} (ended : upcoming sources k m = none)
    (later : m ≤ n) : upcoming sources k n = none := by
  unfold upcoming at ended ⊢
  cases found : sources[k]? with
  | none => rfl
  | some s =>
      rw [found, Option.bind_some, List.getElem?_eq_none_iff] at ended
      rw [Option.bind_some, List.getElem?_eq_none_iff]
      exact Nat.le_trans ended later

/-! ### A schedule of calls -/

/-- Each call of a schedule gets what its source gives after the earlier calls to the
same source. -/
theorem pulls_eq_mapIdx (sources : List TokenSource) (schedule : List Nat) :
    pulls sources schedule =
      schedule.mapIdx fun i k => upcoming sources k ((schedule.take i).count k) := by
  induction schedule generalizing sources with
  | nil => rfl
  | cons j schedule ih =>
      have earlier : ∀ i k, ((j :: schedule).take (i + 1)).count k =
          (schedule.take i).count k + [j].count k := by
        simp [List.count_cons]
      rw [pulls, List.mapIdx_cons]
      cases own : sources[j]? with
      | none =>
          have first : upcoming sources j 0 = none := by simp [upcoming, own]
          simp only [ih, earlier, ← upcoming_of_getElem?_eq_none own]
          exact congrArg (· :: _) first.symm
      | some s =>
          have first : upcoming sources j 0 = s.next.1 := by
            simp [upcoming, own, next_fst, List.head?_eq_getElem?]
          simp only [ih, earlier, upcoming_set_next own]
          exact congrArg (· :: _) first.symm

theorem upcoming_ofText (v : Vocabulary) (texts : List String) (k m : Nat) :
    upcoming (texts.map (ofText v)) k m =
      texts[k]?.bind fun text => (v.tokenize text)[m]? := by
  rw [upcoming, List.getElem?_map, Option.bind_map]
  simp only [Function.comp_def, remaining_ofText]

/-- A schedule over the sources of some texts is dealt the tokens of each text in their
order, whatever calls stand between; and a source that gave nothing never gives anything
again. -/
theorem pulls_eq_dealt (v : Vocabulary) (texts : List String) (schedule : List Nat) :
    pulls (texts.map (ofText v)) schedule = dealt v texts schedule ∧
      ∀ i j k : Nat, i ≤ j → schedule[i]? = some k → schedule[j]? = some k →
        (pulls (texts.map (ofText v)) schedule)[i]? = some none →
          (pulls (texts.map (ofText v)) schedule)[j]? = some none := by
  constructor
  · simp only [pulls_eq_mapIdx, upcoming_ofText, dealt]
  · intro i j k ordered first second ended
    have calls : (schedule.take i).count k ≤ (schedule.take j).count k :=
      (List.take_prefix_take_left ordered).sublist.count_le k
    rw [pulls_eq_mapIdx, List.getElem?_mapIdx, first, Option.map_some, Option.some_inj] at ended
    rw [pulls_eq_mapIdx, List.getElem?_mapIdx, second, Option.map_some, Option.some_inj]
    exact upcoming_eq_none_of_le ended calls

/-- A blank behind the last token is no further answer, and the other text does not notice
the calls between. -/
theorem pulls_eq_dealt_blank_end :
    pulls (["int ", "a|"].map (ofText .empty)) [0, 1, 0, 1, 0, 1] =
        [some ⟨.pseudoType, "int", 0⟩, some ⟨.pseudoType, "a", 0⟩, none,
          some ⟨.union, "|", 1⟩, none, none] ∧
      ([0, 1, 0, 1, 0, 1][2]? = some 0 ∧ [0, 1, 0, 1, 0, 1][4]? = some 0) ∧
      (pulls (["int ", "a|"].map (ofText .empty)) [0, 1, 0, 1, 0, 1])[4]? = some none := by
  obtain ⟨dealing, fused⟩ := pulls_eq_dealt .empty ["int ", "a|"] [0, 1, 0, 1, 0, 1]
  have answers : dealt .empty ["int ", "a|"] [0, 1, 0, 1, 0, 1] =
      [some ⟨.pseudoType, "int", 0⟩, some ⟨.pseudoType, "a", 0⟩, none,
        some ⟨.union, "|", 1⟩, none, none] := by
    decide +kernel
  rw [answers] at dealing
  refine ⟨dealing, ⟨rfl, rfl⟩, ?_⟩
  apply fused 2 4 0 (by decide) rfl rfl
  rw [dealing]
  rfl

end TypeExprLexer.TokenSource
