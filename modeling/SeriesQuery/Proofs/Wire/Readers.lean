/-
  Readers: what they accept, and what more input changes.

  A reader that reads one thing after the other succeeds exactly if the first part does and the
  second one does on what the first has left over.  So what a reader accepts is found from its
  parts, each of which has one lemma `… input = .ok (a, rest) ↔ …`.

  None of the readers here can see the end of its input, except by running into it.  They are
  *steady*: more input behind the old one changes no answer, save the complaint that the input is no
  good.  Hence a message that is cut short is always refused as one (`Steady.cut_short`), wherever
  the cut falls: any other answer would also be the answer to the whole message.
-/
import SeriesQuery.Proofs.Sequencing
import SeriesQuery.Stage.Wire

namespace SeriesQuery.Wire

variable {α β : Type} {r : Reader α} {f : α → Reader β} {input rest : Bytes}

/-! ## What a reader accepts -/

namespace Reader

/-- One reader after the other: the second one starts where the first one has stopped. -/
theorem bind_apply (r : Reader α) (f : α → Reader β) (input : Bytes) :
    (r >>= f) input = r input >>= fun out => f out.1 out.2 := rfl

/-- Two readers in a row succeed exactly if the first does, and the second on what it leaves. -/
theorem bind_eq_ok {b : β} :
    (r >>= f) input = .ok (b, rest) ↔
      ∃ a left, r input = .ok (a, left) ∧ f a left = .ok (b, rest) := by
  rw [bind_apply, SeriesQuery.bind_eq_ok, Prod.exists]

/-- The first one fails, or the second one does on what the first has left over. -/
theorem bind_eq_error {e : Error} :
    (r >>= f) input = .error e ↔
      r input = .error e ∨ ∃ a left, r input = .ok (a, left) ∧ f a left = .error e := by
  rw [bind_apply, SeriesQuery.bind_eq_error, Prod.exists]

/-- A value that is there already takes nothing off the input. -/
theorem pure_eq_ok {a b : α} :
    (pure a : Reader α) input = .ok (b, rest) ↔ a = b ∧ input = rest := by
  show (Except.ok (a, input) : Except Error (α × Bytes)) = .ok (b, rest) ↔ _
  rw [Except.ok.injEq, Prod.mk.injEq]

/-- A change of the value leaves over what was left over before. -/
theorem map_eq_ok {g : α → β} {b : β} :
    (g <$> r) input = .ok (b, rest) ↔ ∃ a, r input = .ok (a, rest) ∧ g a = b := by
  rw [map_eq_pure_bind, bind_eq_ok]
  simp only [pure_eq_ok]
  constructor
  · rintro ⟨a, _, hr, hb, rfl⟩
    exact ⟨a, hr, hb⟩
  · rintro ⟨a, hr, hb⟩
    exact ⟨a, rest, hr, hb, rfl⟩

/-- A check takes nothing off the input. -/
theorem lift_eq_ok {x : Except Error α} {a : α} :
    (liftM x : Reader α) input = .ok (a, rest) ↔ x = .ok a ∧ input = rest := by
  show (x >>= fun a => Except.ok (a, input)) = _ ↔ _
  rw [SeriesQuery.bind_eq_ok]
  simp

/-- A computation that reads nothing fails on every input or on none. -/
theorem lift_eq_error {x : Except Error α} {e : Error} :
    (liftM x : Reader α) input = .error e ↔ x = .error e := by
  show (x >>= fun a => Except.ok (a, input)) = _ ↔ _
  rw [SeriesQuery.bind_eq_error]
  simp

end Reader

/-! ## What more input changes -/

/-- With more input behind the old one a value stays, the new input being left over as well, and an
    error stays unless it says that the input is no good. -/
structure Steady (r : Reader α) : Prop where
  ok : ∀ {input a rest}, r input = .ok (a, rest) →
    ∀ more, r (input ++ more) = .ok (a, rest ++ more)
  error : ∀ {input e}, r input = .error e →
    e = .serialization ∨ ∀ more, r (input ++ more) = .error e

/-- **A message that is cut short is refused as one.** -/
theorem Steady.cut_short (hr : Steady r) {message part : Bytes} {a : α}
    (hwhole : r message = .ok (a, [])) (hpart : part <+: message) (hcut : part ≠ message) :
    r part = .error .serialization := by
  obtain ⟨more, rfl⟩ := hpart
  have hmore : more ≠ [] := fun h => hcut (by rw [h, List.append_nil])
  cases h : r part with
  | ok out =>
    -- the whole message would leave `more` over
    obtain ⟨b, left⟩ := out
    have hsame := hr.ok h more
    rw [hwhole, Except.ok.injEq, Prod.mk.injEq] at hsame
    exact absurd (List.append_eq_nil_iff.mp hsame.2.symm).2 hmore
  | error e =>
    -- another error would be the answer to the whole message as well
    rcases hr.error h with rfl | herror
    · rfl
    · rw [herror more] at hwhole
      cases hwhole

namespace Steady

protected theorem pure (a : α) : Steady (pure a : Reader α) where
  ok h more := by
    obtain ⟨rfl, rfl⟩ := Reader.pure_eq_ok.mp h
    rfl
  error h := by cases h

/-- The complaint that the input is no good is the one answer that more input may change. -/
theorem malformed : Steady (malformed : Reader α) where
  ok h := by cases h
  error h := by
    cases h
    exact .inl rfl

protected theorem bind (hr : Steady r) (hf : ∀ a, Steady (f a)) : Steady (r >>= f) where
  ok h more := by
    obtain ⟨a, left, ha, hb⟩ := Reader.bind_eq_ok.mp h
    exact Reader.bind_eq_ok.mpr ⟨a, left ++ more, hr.ok ha more, (hf a).ok hb more⟩
  error h := by
    rcases Reader.bind_eq_error.mp h with h | ⟨a, left, ha, h⟩
    · exact (hr.error h).imp_right fun hmore more => Reader.bind_eq_error.mpr (.inl (hmore more))
    · exact ((hf a).error h).imp_right fun hmore more =>
        Reader.bind_eq_error.mpr (.inr ⟨a, left ++ more, hr.ok ha more, hmore more⟩)

protected theorem map (hr : Steady r) (g : α → β) : Steady (g <$> r) := by
  rw [map_eq_pure_bind]
  exact hr.bind fun a => .pure (g a)

/-- A check has the same outcome whatever the input. -/
theorem lift (x : Except Error α) : Steady (liftM x : Reader α) where
  ok h more := by
    obtain ⟨hx, rfl⟩ := Reader.lift_eq_ok.mp h
    exact Reader.lift_eq_ok.mpr ⟨hx, rfl⟩
  error h := .inr fun more => Reader.lift_eq_error.mpr (Reader.lift_eq_error.mp h)

/-- The one reader that sees the end of its input: it runs into it. -/
theorem takeBytes (count : Nat) : Steady (takeBytes count) where
  ok {input _ _} h more := by
    unfold Wire.takeBytes at h ⊢
    split at h
    case isTrue => cases h
    case isFalse hlong =>
      cases h
      -- what was long enough is long enough with more behind it
      have hlong' : ¬ (input ++ more).length < count := by
        rw [List.length_append]
        omega
      rw [if_neg hlong', List.take_append_of_le_length (by omega),
        List.drop_append_of_le_length (by omega)]
  error h := by
    unfold Wire.takeBytes at h
    split at h
    case isTrue =>
      cases h
      exact .inl rfl
    case isFalse => cases h

/-- A row of steady readers is steady. -/
theorem readMany (hr : Steady r) (count : Nat) : Steady (readMany r count) := by
  induction count with
  | zero => exact .pure []
  -- one item, and then the others
  | succ count ih => exact hr.bind fun a => ih.bind fun items => .pure (a :: items)

end Steady
end SeriesQuery.Wire
