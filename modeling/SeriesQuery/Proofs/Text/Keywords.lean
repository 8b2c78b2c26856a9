/-
  Names and numbers that need no clean-up.

  `Text.trim` drops blanks at the ends and nothing else (`exists_surroundings`), so it leaves a text
  without blanks as it is.  `Text.keyword` folds case as well, and leaves such a text as it is if no
  letter of it is a capital.
-/
import SeriesQuery.Text.Blank

namespace SeriesQuery.Text

variable {cs : List Char}

theorem dropWhile_isBlank_eq_self (h : ∀ c ∈ cs, isBlank c = false) :
    cs.dropWhile isBlank = cs := by
  cases cs with
  | nil => rfl
  | cons c rest =>
    have hc : ¬ isBlank c = true := by
      rw [h c List.mem_cons_self]
      decide
    exact List.dropWhile_cons_of_neg hc

/-- A text without blanks is not cut. -/
theorem trim_eq_self (h : ∀ c ∈ cs, isBlank c = false) : trim cs = cs := by
  have hreverse : ∀ c ∈ cs.reverse, isBlank c = false := fun c hc => h c (List.mem_reverse.mp hc)
  rw [trim, dropWhile_isBlank_eq_self h, dropWhile_isBlank_eq_self hreverse, List.reverse_reverse]

/-- Of a text without blanks in it, trimming leaves the text and takes the blanks around it. -/
theorem trim_surrounded {front back : List Char} (hne : cs ≠ [])
    (h : ∀ c ∈ cs, isBlank c = false) (hfront : ∀ c ∈ front, isBlank c = true)
    (hback : ∀ c ∈ back, isBlank c = true) : trim (front ++ cs ++ back) = cs := by
  have hstop : ∀ {ds es : List Char}, ds ≠ [] → (∀ c ∈ ds, isBlank c = false) →
      (ds ++ es).dropWhile isBlank = ds ++ es := by
    intro ds es hds hblank
    obtain ⟨d, rest, rfl⟩ := List.exists_cons_of_ne_nil hds
    have hd : ¬ isBlank d = true := by
      rw [hblank d List.mem_cons_self]
      decide
    exact List.dropWhile_cons_of_neg hd
  have hreverse : ∀ c ∈ cs.reverse, isBlank c = false := fun c hc => h c (List.mem_reverse.mp hc)
  have hbehind : ∀ c ∈ back.reverse, isBlank c = true := fun c hc =>
    hback c (List.mem_reverse.mp hc)
  have hfound := @hstop cs.reverse [] (by simpa using hne) hreverse
  rw [List.append_nil] at hfound
  rw [trim, List.append_assoc, List.dropWhile_append_of_pos hfront, hstop hne h,
    List.reverse_append, List.dropWhile_append_of_pos hbehind, hfound, List.reverse_reverse]

/-- What trimming takes away are blanks at both ends. -/
theorem exists_surroundings (cs : List Char) : ∃ front back, cs = front ++ trim cs ++ back ∧
    (∀ c ∈ front, isBlank c = true) ∧ ∀ c ∈ back, isBlank c = true := by
  have hblank : ∀ ds : List Char, ∀ c ∈ ds.takeWhile isBlank, isBlank c = true := fun _ =>
    List.all_eq_true.mp List.all_takeWhile
  generalize hrest : cs.dropWhile isBlank = rest
  have hfront : cs = cs.takeWhile isBlank ++ rest := by
    rw [← hrest, List.takeWhile_append_dropWhile]
  have hback : rest = trim cs ++ (rest.reverse.takeWhile isBlank).reverse := by
    rw [trim, hrest, ← List.reverse_append, List.takeWhile_append_dropWhile, List.reverse_reverse]
  refine ⟨cs.takeWhile isBlank, (rest.reverse.takeWhile isBlank).reverse, ?_, hblank cs, ?_⟩
  · rw [List.append_assoc, ← hback, ← hfront]
  · exact fun c hc => hblank _ c (List.mem_reverse.mp hc)

/-- A text without blanks and capitals is its own keyword. -/
theorem keyword_eq_self (h : ∀ c ∈ cs, isBlank c = false ∧ c.toLower = c) :
    keyword (String.ofList cs) = cs := by
  rw [keyword, String.toList_ofList, trim_eq_self fun c hc => (h c hc).1, lowerAscii,
    List.map_congr_left fun c hc => (h c hc).2]
  exact List.map_id cs

end SeriesQuery.Text
