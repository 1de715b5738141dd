/-!
# Tables by name

A table keeps one entry under each name, in the order in which the names first came.  What an
operation does to a table is what it does to `find?`.
-/

namespace VectorScript

/-- Entries under distinct names, first come first. -/
structure NameTable (α : Type) where
  entries : List (String × α)
deriving Inhabited

namespace NameTable

variable {α : Type}

def empty : NameTable α := ⟨[]⟩

def names (t : NameTable α) : List String :=
  t.entries.map Prod.fst

/-- The first entry under a name. -/
def lookup (name : String) : List (String × α) → Option α
  | [] => none
  | (key, value) :: rest => if key = name then some value else lookup name rest

def find? (t : NameTable α) (name : String) : Option α :=
  lookup name t.entries

def contains (t : NameTable α) (name : String) : Bool :=
  (t.find? name).isSome

/-- Replaces the entry under a name where it stands, or adds it at the end. -/
def put (name : String) (value : α) : List (String × α) → List (String × α)
  | [] => [(name, value)]
  | (key, old) :: rest =>
    if key = name then (name, value) :: rest else (key, old) :: put name value rest

def insert (t : NameTable α) (name : String) (value : α) : NameTable α :=
  ⟨put name value t.entries⟩

def erase (t : NameTable α) (name : String) : NameTable α :=
  ⟨t.entries.filter (·.1 ≠ name)⟩

/-! ### Entries -/

section Entries

variable {t : NameTable α} {name other : String} {old value : α}

@[simp] theorem find?_empty (name : String) : (empty : NameTable α).find? name = none := rfl

theorem lookup_put (name other : String) (value : α) (entries : List (String × α)) :
    lookup other (put name value entries) =
      if other = name then some value else lookup other entries := by
  induction entries with
  | nil => simp [put, lookup, eq_comm]
  | cons entry rest ih =>
    obtain ⟨key, old⟩ := entry
    by_cases hkey : key = name
    · by_cases hother : other = name <;> simp_all [put, lookup, eq_comm]
    · by_cases hother : other = name
      · simp_all [put, lookup]
      · simp [put, lookup, hkey, ih, hother]

theorem find?_insert (t : NameTable α) (name other : String) (value : α) :
    (t.insert name value).find? other = if other = name then some value else t.find? other :=
  lookup_put name other value t.entries

@[simp] theorem find?_insert_self (t : NameTable α) (name : String) (value : α) :
    (t.insert name value).find? name = some value := by
  simp [find?_insert]

/-- What all entries have, all entries have if the new one does. -/
theorem forall_insert {p : α → Prop} (h : ∀ x a, t.find? x = some a → p a) (name : String)
    (hvalue : p value) : ∀ x a, (t.insert name value).find? x = some a → p a := by
  intro x a hx
  rw [find?_insert] at hx
  split at hx
  · cases hx
    exact hvalue
  · exact h x a hx

theorem find?_erase (t : NameTable α) (name other : String) :
    (t.erase name).find? other = if other = name then none else t.find? other := by
  obtain ⟨entries⟩ := t
  induction entries with
  | nil => simp [erase, find?, lookup]
  | cons entry rest ih =>
    obtain ⟨key, value⟩ := entry
    simp only [erase, find?] at ih ⊢
    by_cases hkey : key = name <;> by_cases hother : other = name <;>
      by_cases hko : key = other <;> simp_all [lookup]

theorem find?_foldl_erase {names : List String} :
    (names.foldl erase t).find? other = if other ∈ names then none else t.find? other := by
  induction names generalizing t with
  | nil => simp
  | cons name names ih =>
    rw [List.foldl_cons, ih, find?_erase]
    by_cases hother : other ∈ names <;> simp [hother]

theorem contains_iff : t.contains name ↔ ∃ value, t.find? name = some value := by
  simp [contains, Option.isSome_iff_exists]

theorem contains_insert :
    (t.insert name value).contains other ↔ other = name ∨ t.contains other := by
  rw [contains, find?_insert]
  by_cases hother : other = name <;> simp [hother, contains]

theorem contains_insert_self (t : NameTable α) (name : String) (value : α) :
    (t.insert name value).contains name :=
  contains_insert.mpr (.inl rfl)

theorem contains_insert_of_contains (h : t.contains other) :
    (t.insert name value).contains other :=
  contains_insert.mpr (.inr h)

theorem contains_insert_of_ne (h : other ≠ name) :
    (t.insert name value).contains other = t.contains other := by
  rw [contains, find?_insert, if_neg h, contains]

/-- What stood under a name can be put back where it stood. -/
theorem insert_insert_of_find? (h : t.find? name = some old) :
    (t.insert name value).insert name old = t := by
  obtain ⟨entries⟩ := t
  have hput : ∀ entries : List (String × α), lookup name entries = some old →
      put name old (put name value entries) = entries := by
    intro entries
    induction entries with
    | nil => exact fun h => by cases h
    | cons entry rest ih =>
      obtain ⟨key, first⟩ := entry
      intro h
      by_cases hkey : key = name
      · subst hkey
        simp_all [lookup, put]
      · simp only [lookup, if_neg hkey] at h
        simp [put, hkey, ih h]
  exact congrArg mk (hput entries h)

/-- A new name stands at the end, and can be taken out again. -/
theorem erase_insert_of_find?_none (h : t.find? name = none) :
    (t.insert name value).erase name = t := by
  obtain ⟨entries⟩ := t
  have hfilter : ∀ entries : List (String × α), lookup name entries = none →
      (put name value entries).filter (·.1 ≠ name) = entries := by
    intro entries
    induction entries with
    | nil => simp [put]
    | cons entry rest ih =>
      obtain ⟨key, first⟩ := entry
      intro h
      by_cases hkey : key = name
      · simp [lookup, hkey] at h
      · simp only [lookup, if_neg hkey] at h
        simpa [put, hkey] using ih h
  exact congrArg mk (hfilter entries h)

theorem sizeOf_lt_of_find? [SizeOf α] (h : t.find? name = some value) :
    sizeOf value < sizeOf t := by
  obtain ⟨entries⟩ := t
  induction entries with
  | nil => cases h
  | cons entry rest ih =>
    obtain ⟨key, first⟩ := entry
    simp only [find?, lookup] at h
    split at h
    · cases h
      simp
      omega
    · have := ih h
      simp at this ⊢
      omega

end Entries

/-! ### Names -/

section Names

variable {t : NameTable α} {name : String} {value : α}

theorem lookup_eq_none_iff {entries : List (String × α)} :
    lookup name entries = none ↔ name ∉ entries.map Prod.fst := by
  induction entries with
  | nil => simp [lookup]
  | cons entry rest ih =>
    obtain ⟨key, value⟩ := entry
    by_cases hkey : key = name
    · simp [lookup, hkey]
    · simp [lookup, hkey, ih, Ne.symm hkey]

theorem mem_names_iff : name ∈ t.names ↔ t.contains name := by
  rw [contains, Option.isSome_iff_ne_none, ne_eq, find?, lookup_eq_none_iff, Decidable.not_not]
  rfl

theorem mem_names_of_find? (h : t.find? name = some value) : name ∈ t.names :=
  mem_names_iff.mpr (contains_iff.mpr ⟨value, h⟩)

theorem map_fst_put (entries : List (String × α)) :
    (put name value entries).map Prod.fst =
      if name ∈ entries.map Prod.fst then entries.map Prod.fst
      else entries.map Prod.fst ++ [name] := by
  induction entries with
  | nil => simp [put]
  | cons entry rest ih =>
    obtain ⟨key, first⟩ := entry
    by_cases hkey : key = name
    · simp [put, hkey]
    · by_cases hmem : name ∈ rest.map Prod.fst
      · simp only [put, if_neg hkey, List.map_cons, ih, if_pos hmem]
        rw [if_pos (List.mem_cons_of_mem _ hmem)]
      · simp only [put, if_neg hkey, List.map_cons, ih, if_neg hmem]
        rw [if_neg (by simp only [List.mem_cons, not_or]; exact ⟨Ne.symm hkey, hmem⟩)]
        rfl

/-- No name stands twice in a table. -/
def Distinct (t : NameTable α) : Prop := t.names.Nodup

theorem distinct_empty : (empty : NameTable α).Distinct := List.nodup_nil

theorem Distinct.insert (h : t.Distinct) (name : String) (value : α) :
    (t.insert name value).Distinct := by
  show ((put name value t.entries).map Prod.fst).Nodup
  rw [map_fst_put]
  split
  · exact h
  · rename_i hmem
    exact List.nodup_append.mpr ⟨h, by simp, fun a ha b hb => by
      rintro rfl
      exact hmem (List.mem_singleton.mp hb ▸ ha)⟩

theorem Distinct.erase (h : t.Distinct) (name : String) : (t.erase name).Distinct :=
  h.sublist (List.filter_sublist.map _)

theorem Distinct.foldl_erase (h : t.Distinct) (names : List String) :
    (names.foldl NameTable.erase t).Distinct := by
  induction names generalizing t with
  | nil => exact h
  | cons name names ih => exact ih (h.erase name)

/-- All names of a table are names of `K`. -/
def Within (t : NameTable α) (K : String → Bool) : Prop :=
  ∀ name, t.contains name → K name

theorem within_insert {K : String → Bool} (h : t.Within K) (hname : K name) :
    (t.insert name value).Within K := by
  intro other hother
  rcases contains_insert.mp hother with rfl | hother
  · exact hname
  · exact h other hother

end Names

/-! ### Unused names -/

/-- How many names of a table are not among `used`. -/
def unused (t : NameTable α) (used : List String) : Nat :=
  (t.names.filter (· ∉ used)).length

/-- Using a name of the table leaves fewer names unused. -/
theorem unused_cons_lt {t : NameTable α} {used : List String} {name : String} {value : α}
    (h : t.find? name = some value) (hnew : name ∉ used) :
    t.unused (name :: used) < t.unused used := by
  have hsub : t.names.filter (· ∉ name :: used) =
      (t.names.filter (· ∉ used)).filter (· ≠ name) := by
    rw [List.filter_filter]
    congr 1
    funext other
    simp
  unfold unused
  rw [hsub, List.length_filter_lt_length_iff_exists]
  exact ⟨name, by simp [mem_names_of_find? h, hnew], by simp⟩

end NameTable

end VectorScript
