/-! Finite maps as lists of pairs.

A table of one optimization holds a few hundred keys and is read far more often
than it is listed, so a plain list serves. Each key stands once, in the order in
which the keys were first written. `get?_set` says what a write does to every
later read, and `size_set` what it does to the number of keys. -/
namespace TracePeel

/-- Pairs of a key and its value, each key once, in the order of first writing. -/
structure Bindings (κ ν : Type) where
  entries : List (κ × ν) := []
  deriving Repr, DecidableEq

namespace Bindings

def size {κ ν : Type} (m : Bindings κ ν) : Nat :=
  m.entries.length

variable {κ ν : Type} [DecidableEq κ]

def find (k : κ) : List (κ × ν) → Option ν
  | [] => none
  | (k', v) :: rest => if k' = k then some v else find k rest

def put (k : κ) (v : ν) : List (κ × ν) → List (κ × ν)
  | [] => [(k, v)]
  | (k', v') :: rest => if k' = k then (k, v) :: rest else (k', v') :: put k v rest

def get? (m : Bindings κ ν) (k : κ) : Option ν :=
  find k m.entries

def contains (m : Bindings κ ν) (k : κ) : Bool :=
  (m.get? k).isSome

/-- Writes `v` under `k`, over the value that stood there. -/
def set (m : Bindings κ ν) (k : κ) (v : ν) : Bindings κ ν :=
  ⟨put k v m.entries⟩

/-- Writes the pairs one after the other, so the last of equal keys stays. -/
def ofList (pairs : List (κ × ν)) : Bindings κ ν :=
  pairs.foldl (fun m (k, v) => m.set k v) {}

@[simp] theorem get?_empty (k : κ) : ({} : Bindings κ ν).get? k = none := rfl

theorem find_put (k k' : κ) (v : ν) (l : List (κ × ν)) :
    find k' (put k v l) = if k = k' then some v else find k' l := by
  induction l with
  | nil => simp [put, find]
  | cons p rest ih =>
    obtain ⟨a, b⟩ := p
    by_cases h : a = k
    · subst h
      by_cases h' : a = k' <;> simp [put, find, h']
    · by_cases h' : a = k'
      · subst h'
        simp [put, find, h, Ne.symm h]
      · simp [put, find, h, h', ih]

theorem get?_set (m : Bindings κ ν) (k k' : κ) (v : ν) :
    (m.set k v).get? k' = if k = k' then some v else m.get? k' :=
  find_put k k' v m.entries

@[simp] theorem get?_set_self (m : Bindings κ ν) (k : κ) (v : ν) :
    (m.set k v).get? k = some v := by
  simp [get?_set]

/-- What stands in a list after a write stood there before or was written. -/
theorem mem_put {k : κ} {v : ν} {l : List (κ × ν)} {p : κ × ν} (h : p ∈ put k v l) :
    p ∈ l ∨ p = (k, v) := by
  induction l with
  | nil => exact .inr (by simpa [put] using h)
  | cons q rest ih =>
    unfold put at h
    split at h
    · rcases List.mem_cons.1 h with h | h
      · exact .inr h
      · exact .inl (.tail _ h)
    · rcases List.mem_cons.1 h with rfl | h
      · exact .inl (List.mem_cons_self ..)
      · exact (ih h).imp_left (.tail _)

theorem mem_of_get? {m : Bindings κ ν} {k : κ} {v : ν} (h : m.get? k = some v) :
    (k, v) ∈ m.entries := by
  obtain ⟨l⟩ := m
  induction l with
  | nil => cases h
  | cons p rest ih =>
    obtain ⟨a, b⟩ := p
    by_cases he : a = k
    · simp_all [get?, find]
    · exact .tail _ (ih (by simpa [get?, find, he] using h))

/-- A list in which each key stands once stays one. -/
theorem nodup_put {k : κ} {v : ν} {l : List (κ × ν)} (h : (l.map (·.1)).Nodup) :
    ((put k v l).map (·.1)).Nodup := by
  induction l with
  | nil => simp [put]
  | cons p rest ih =>
    obtain ⟨a, b⟩ := p
    obtain ⟨ha, hrest⟩ := List.nodup_cons.1 h
    by_cases he : a = k
    · simpa [put, he] using List.nodup_cons.2 ⟨he ▸ ha, hrest⟩
    · simp only [put, he, if_false, List.map_cons, List.nodup_cons]
      refine ⟨fun hmem => ?_, ih hrest⟩
      obtain ⟨q, hq, hqa⟩ := List.mem_map.1 hmem
      rcases mem_put hq with hq | rfl
      · exact ha (List.mem_map.2 ⟨q, hq, hqa⟩)
      · exact he hqa.symm

theorem size_put (k : κ) (v : ν) (l : List (κ × ν)) :
    (put k v l).length = if (find k l).isSome then l.length else l.length + 1 := by
  induction l with
  | nil => simp [put, find]
  | cons p rest ih =>
    obtain ⟨a, b⟩ := p
    by_cases h : a = k
    · simp [put, find, h]
    · simp only [put, find, h, if_false, List.length_cons, ih]
      split <;> rfl

/-- A write adds a key only when it was not there. -/
theorem size_set (m : Bindings κ ν) (k : κ) (v : ν) :
    (m.set k v).size = if m.contains k then m.size else m.size + 1 :=
  size_put k v m.entries

end Bindings
end TracePeel
