/-
  Label sets: what tells one series from another.

  A set is kept as its pairs in ascending order of keys, and the order is part of the type.  Two
  sets with the same labels are therefore the same value, in whatever order they were given, and
  equality of sets is equality of the lists.  Strings are compared by code points, which is also the
  order of their UTF-8 bytes.
-/

namespace SeriesQuery

/-- Pairs in ascending order of keys, no key twice. -/
def KeysAscending (pairs : List (String × String)) : Prop :=
  pairs.Pairwise fun p q => p.1 < q.1

/-- Gives `key` a value in a list that is ordered by keys. -/
def insertPair (key value : String) : List (String × String) → List (String × String)
  | [] => [(key, value)]
  | (k, v) :: rest =>
    if key < k then (key, value) :: (k, v) :: rest
    else if key = k then (key, value) :: rest
    else (k, v) :: insertPair key value rest

/-- A key of the longer list is the new one or was there before. -/
theorem mem_keys_insertPair {key value : String} {pairs : List (String × String)}
    {p : String × String} (h : p ∈ insertPair key value pairs) : p.1 = key ∨ p ∈ pairs := by
  induction pairs with
  | nil =>
    have hp : p = (key, value) := by simpa [insertPair] using h
    exact Or.inl (by rw [hp])
  | cons q rest ih =>
    obtain ⟨k, v⟩ := q
    rw [insertPair] at h
    split at h
    · rcases List.mem_cons.1 h with rfl | h
      · exact Or.inl rfl
      · exact Or.inr h
    · split at h
      · rcases List.mem_cons.1 h with rfl | h
        · exact Or.inl rfl
        · exact Or.inr (List.mem_cons_of_mem _ h)
      · rcases List.mem_cons.1 h with rfl | h
        · exact Or.inr List.mem_cons_self
        · exact (ih h).imp id (List.mem_cons_of_mem _)

/-- Of two different keys that are not ascending, the second is the smaller one. -/
theorem key_lt_of_not_lt {a b : String} (h : ¬a < b) (hne : a ≠ b) : b < a := by
  apply Classical.byContradiction
  intro hba
  exact hne (String.le_antisymm (String.not_lt.1 hba) (String.not_lt.1 h))

/-- The order of the keys survives an insertion. -/
theorem KeysAscending.insertPair {pairs : List (String × String)} (h : KeysAscending pairs)
    (key value : String) : KeysAscending (insertPair key value pairs) := by
  induction pairs with
  | nil => exact List.pairwise_singleton _ _
  | cons q rest ih =>
    obtain ⟨k, v⟩ := q
    obtain ⟨hk, hrest⟩ := List.pairwise_cons.1 h
    rw [SeriesQuery.insertPair]
    split
    case isTrue hlt =>
      refine List.pairwise_cons.2 ⟨fun p hp => ?_, h⟩
      rcases List.mem_cons.1 hp with rfl | hp
      · exact hlt
      · exact String.lt_trans hlt (hk p hp)
    case isFalse hlt =>
      split
      case isTrue heq =>
        exact List.pairwise_cons.2 ⟨fun p hp => heq ▸ hk p hp, hrest⟩
      case isFalse hne =>
        refine List.pairwise_cons.2 ⟨fun p hp => ?_, ih hrest⟩
        rcases mem_keys_insertPair hp with heq | hp
        · exact heq ▸ key_lt_of_not_lt hlt hne
        · exact hk p hp

/-- After an insertion the key has the new value, and every other key what it had before. -/
theorem lookup_insertPair (key value k : String) (pairs : List (String × String)) :
    (insertPair key value pairs).lookup k = if k = key then some value else pairs.lookup k := by
  induction pairs with
  | nil => grind [insertPair]
  | cons q rest ih => grind [insertPair]

/-- A label set. -/
structure Labels where
  pairs : List (String × String)
  ascending : KeysAscending pairs
  deriving DecidableEq

namespace Labels

def empty : Labels := ⟨[], List.Pairwise.nil⟩

/-- The set with `key` at `value`. -/
def insert (labels : Labels) (key value : String) : Labels :=
  ⟨insertPair key value labels.pairs, labels.ascending.insertPair key value⟩

/-- The set of the given pairs; of two with one key the later counts. -/
def ofList (pairs : List (String × String)) : Labels :=
  pairs.foldl (fun labels (k, v) => labels.insert k v) empty

/-- The value at `key`. -/
def get? (labels : Labels) (key : String) : Option String :=
  labels.pairs.lookup key

theorem get?_insert (labels : Labels) (key value k : String) :
    (labels.insert key value).get? k = if k = key then some value else labels.get? k :=
  lookup_insertPair key value k labels.pairs

def size (labels : Labels) : Nat := labels.pairs.length

/-- The set as text: its pairs in order, in braces. -/
def text (labels : Labels) : String :=
  "\x7b" ++ String.intercalate ", " (labels.pairs.map fun (k, v) => k ++ "=" ++ v) ++ "\x7d"

/-- One pair before another: by key, then by value. -/
def comparePair (p q : String × String) : Ordering :=
  (Ord.compare p.1 q.1).then (Ord.compare p.2 q.2)

/-- Sets are ordered as the lists of their pairs, a proper beginning before the whole. -/
def compare (a b : Labels) : Ordering :=
  go a.pairs b.pairs
where
  go : List (String × String) → List (String × String) → Ordering
    | [], [] => .eq
    | [], _ :: _ => .lt
    | _ :: _, [] => .gt
    | p :: ps, q :: qs => (comparePair p q).then (go ps qs)

/-- Whether two sets agree: on every label if no keys are given, otherwise on each of the keys,
    which both have to carry. -/
def agreeOn (keys : List String) (a b : Labels) : Bool :=
  if keys.isEmpty then a == b
  else keys.all fun k =>
    match a.get? k, b.get? k with
    | some x, some y => x == y
    | _, _ => false

end Labels
end SeriesQuery
