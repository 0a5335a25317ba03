import Mathlib.Data.List.Nodup
import Backtrack.Json.Value

/-!
# The last member counts

Where a key occurs more than once in an object, the member is looked up from the end, while the
plain form enters all members in order and lets the later overwrite the earlier. Both come to the
last one. So it does not matter whether a value is looked up before its plain form is taken or
behind that, along any path of keys through nested objects.

The entries of a plain form are in the order of their keys, so no key occurs twice.
-/

namespace Backtrack

namespace Bytes

variable {a b : UInt8} {s t u : Bytes}

theorem lt_cons_iff : lt (a :: s) (b :: t) = true ↔ a < b ∨ a = b ∧ lt s t = true := by
  simp [lt]

theorem lt_irrefl (t : Bytes) : lt t t = false := by
  induction t with
  | nil => rfl
  | cons b t ih => simp [lt, ih]

theorem lt_trans (h : lt s t = true) (h' : lt t u = true) : lt s u = true := by
  induction s generalizing t u with
  | nil =>
    cases u with
    | nil => cases t <;> cases h'
    | cons => rfl
  | cons a s ih =>
    cases t with
    | nil => cases h
    | cons b t =>
      cases u with
      | nil => cases h'
      | cons c u =>
        rw [lt_cons_iff] at h h' ⊢
        rcases h with hab | ⟨rfl, hst⟩
        · rcases h' with hbc | ⟨rfl, _⟩
          · exact .inl (UInt8.lt_trans hab hbc)
          · exact .inl hab
        · rcases h' with hac | ⟨rfl, htu⟩
          · exact .inl hac
          · exact .inr ⟨rfl, ih hst htu⟩

theorem lt_of_not_lt (hne : s ≠ t) (h : lt s t = false) : lt t s = true := by
  induction s generalizing t with
  | nil =>
    cases t with
    | nil => exact absurd rfl hne
    | cons => cases h
  | cons a s ih =>
    cases t with
    | nil => rfl
    | cons b t =>
      rw [← Bool.not_eq_true, lt_cons_iff, not_or, not_and] at h
      obtain ⟨hab, hst⟩ := h
      rw [lt_cons_iff]
      by_cases heq : a = b
      · subst heq
        have hst := Bool.not_eq_true _ ▸ hst rfl
        exact .inr ⟨rfl, ih (fun hs => hne (congrArg _ hs)) hst⟩
      · exact .inl (UInt8.lt_of_le_of_ne (UInt8.not_lt.mp hab) (Ne.symm heq))

end Bytes

namespace Json

variable {α : Type} {key other : Bytes} {value : α} {entries : List (Bytes × α)}

theorem lookup_cons_eq (key k : Bytes) (value : α) (entries : List (Bytes × α)) :
    ((k, value) :: entries).lookup key = if key = k then some value else entries.lookup key := by
  rw [List.lookup_cons]
  by_cases hk : key = k
  · rw [if_pos hk, beq_iff_eq.mpr hk]
  · rw [if_neg hk, beq_eq_false_iff_ne.mpr hk]

/-- An entry that is put in changes what is found under its key and nothing else. -/
theorem lookup_insertEntry (entries : List (Bytes × α)) :
    (insertEntry key value entries).lookup other =
      if other = key then some value else entries.lookup other := by
  induction entries with
  | nil => exact lookup_cons_eq other key value []
  | cons first rest ih =>
    obtain ⟨k, v⟩ := first
    unfold insertEntry
    by_cases hk : key = k
    · subst hk
      rw [if_pos rfl, lookup_cons_eq, lookup_cons_eq]
      split <;> rfl
    rw [if_neg hk]
    split
    · exact lookup_cons_eq other key value _
    · rw [lookup_cons_eq, lookup_cons_eq, ih]
      by_cases hother : other = k
      · rw [if_pos hother, if_neg (hother ▸ Ne.symm hk), if_pos hother]
      · rw [if_neg hother, if_neg hother]

theorem mem_insertEntry {entry : Bytes × α} (h : entry ∈ insertEntry key value entries) :
    entry = (key, value) ∨ entry ∈ entries := by
  induction entries with
  | nil => exact .inl (List.mem_singleton.mp h)
  | cons first rest ih =>
    unfold insertEntry at h
    split at h
    · rcases List.mem_cons.mp h with rfl | hmem
      · exact .inl rfl
      · exact .inr (List.mem_cons_of_mem _ hmem)
    split at h
    · exact List.mem_cons.mp h
    · rcases List.mem_cons.mp h with rfl | hmem
      · exact .inr List.mem_cons_self
      · exact (ih hmem).imp_right (List.mem_cons_of_mem _)

def InOrder (entries : List (Bytes × α)) : Prop :=
  entries.Pairwise fun first second => Bytes.lt first.1 second.1 = true

theorem InOrder.insertEntry (h : InOrder entries) : InOrder (insertEntry key value entries) := by
  induction entries with
  | nil => exact List.pairwise_singleton _ _
  | cons first rest ih =>
    obtain ⟨k, v⟩ := first
    obtain ⟨hfirst, hrest⟩ := List.pairwise_cons.mp h
    unfold Json.insertEntry
    by_cases hk : key = k
    · subst hk
      rw [if_pos rfl]
      exact List.pairwise_cons.mpr ⟨hfirst, hrest⟩
    rw [if_neg hk]
    split
    · rename_i hlt
      refine List.pairwise_cons.mpr ⟨fun entry hentry => ?_, h⟩
      rcases List.mem_cons.mp hentry with rfl | hmem
      · exact hlt
      · exact Bytes.lt_trans hlt (hfirst entry hmem)
    · rename_i hlt
      refine List.pairwise_cons.mpr ⟨fun entry hentry => ?_, ih hrest⟩
      rcases mem_insertEntry hentry with rfl | hmem
      · exact Bytes.lt_of_not_lt hk (Bool.not_eq_true _ ▸ hlt)
      · exact hfirst entry hmem

theorem InOrder.nodup (h : InOrder entries) : (entries.map Prod.fst).Nodup := by
  refine List.pairwise_map.mpr (h.imp fun hlt heq => ?_)
  rw [heq, Bytes.lt_irrefl] at hlt
  cases hlt

/-- Of entries in order, those that are there are those that are found. -/
theorem InOrder.mem_iff (h : InOrder entries) :
    (key, value) ∈ entries ↔ entries.lookup key = some value := by
  constructor
  · intro hmem
    obtain ⟨before, behind, rfl⟩ := List.append_of_mem hmem
    refine List.lookup_eq_some_iff.mpr ⟨before, behind, rfl, fun entry hentry => ?_⟩
    have hlt := (List.pairwise_append.mp h).2.2 entry hentry _ List.mem_cons_self
    refine bne_iff_ne.mpr fun heq => ?_
    rw [heq, Bytes.lt_irrefl] at hlt
    cases hlt
  · intro hlookup
    obtain ⟨before, behind, rfl, _⟩ := List.lookup_eq_some_iff.mp hlookup
    exact List.mem_append_right _ List.mem_cons_self

namespace Value

/-- What is found behind the entering of some members is that of the last with the key, and what was
there before if there is none. -/
theorem lookup_plainMembers (members : List (Bytes × Value)) (entries : List (Bytes × Plain)) :
    (plainMembers members entries).lookup key =
      (((object members).get? key).map plain).or (entries.lookup key) := by
  induction members generalizing entries with
  | nil => rfl
  | cons member members ih =>
    obtain ⟨k, v⟩ := member
    rw [plainMembers, ih, lookup_insertEntry, get?, get?, List.reverse_cons, List.find?_append]
    cases hlast : members.reverse.find? fun member => member.1 = key with
    | some last => rfl
    | none =>
      by_cases hk : key = k
      · subst hk
        simp
      · simp [hk, Ne.symm hk]

theorem inOrder_plainMembers (members : List (Bytes × Value)) {entries : List (Bytes × Plain)}
    (h : InOrder entries) : InOrder (plainMembers members entries) := by
  induction members generalizing entries with
  | nil => exact h
  | cons member members ih => exact ih h.insertEntry

theorem get?_plain (v : Value) (key : Bytes) : v.plain.get? key = (v.get? key).map plain := by
  cases v with
  | object members =>
    rw [plain, Plain.get?, lookup_plainMembers]
    exact Option.or_none
  | null | bool | int | float | string | array | other => rfl

def follow? (path : List Bytes) (v : Value) : Option Value :=
  path.foldlM (fun v key => v.get? key) v

end Value

/-- The plain value that a path of keys leads to through nested maps. -/
def Plain.follow? (path : List Bytes) (p : Plain) : Option Plain :=
  path.foldlM (fun p key => p.get? key) p

theorem Value.follow?_plain (v : Value) (path : List Bytes) :
    v.plain.follow? path = (v.follow? path).map plain := by
  induction path generalizing v with
  | nil => rfl
  | cons key path ih =>
    unfold Plain.follow? Value.follow?
    rw [List.foldlM_cons, List.foldlM_cons, get?_plain]
    cases v.get? key with
    | none => rfl
    | some w => exact ih w

/-- The plain form of an object is a map that has an entry for a key exactly if a member with the
key can be looked up, and then the entry is the plain form of what is found. So following a path of
keys and taking the plain form can be exchanged. -/
theorem Value.plain_object (members : List (Bytes × Value)) :
    (∃ entries, (object members).plain = .map entries ∧ (entries.map Prod.fst).Nodup ∧
      ∀ key, ((∃ p, (key, p) ∈ entries) ↔ (object members).get? key ≠ none) ∧
        ∀ v, (object members).get? key = some v → ∀ p, (key, p) ∈ entries ↔ p = v.plain) ∧
    ∀ path, (object members).plain.follow? path = ((object members).follow? path).map plain := by
  have horder : InOrder (plainMembers members []) := inOrder_plainMembers members .nil
  have hmem : ∀ key p, (key, p) ∈ plainMembers members [] ↔
      ((object members).get? key).map plain = some p := by
    intro key p
    rw [horder.mem_iff, lookup_plainMembers]
    exact Eq.congr_left Option.or_none
  refine ⟨⟨_, rfl, horder.nodup, fun key => ⟨?_, fun v hv p => ?_⟩⟩, follow?_plain _⟩
  · simp only [hmem, ← Option.isSome_iff_exists, Option.isSome_map, Option.isSome_iff_ne_none]
  · rw [hmem, hv]
    exact ⟨fun h => (Option.some.inj h).symm, fun h => congrArg some h.symm⟩

/-- Members with one key inside members with one key. -/
def Value.nest : List (Bytes × Value) :=
  [("a", .object [("b", .int 1)]), ("c", .null),
    ("a", .object [("b", .int 2), ("d", .array []), ("b", .int 3)])]

theorem Value.plain_object_nest :
    (object nest).follow? ["a", "b"] = some (.int 3) ∧
      (object nest).plain.follow? ["a", "b"] = some (.int 3) ∧
      ∃ entries, (object nest).plain = .map entries ∧ (("c" : Bytes), Plain.null) ∈ entries := by
  obtain ⟨⟨entries, hplain, _, hentries⟩, hpath⟩ := plain_object nest
  have hc : (object nest).get? "c" = some null := by rfl
  refine ⟨rfl, (hpath ["a", "b"]).trans rfl, entries, hplain, ?_⟩
  exact ((hentries "c").2 null hc .null).mpr rfl

end Json

end Backtrack
