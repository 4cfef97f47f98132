import Cassette.Store
import Cassette.Proofs.Reading

/-! What writing does to the files of a store. A path leads where directories and names lead,
so bytes written to an object change no path, and a new object under a name is what every path
to the name leads to. Main statements: `resolve_overwrite`, `replace_eq`. -/

namespace Cassette.Store

variable {s : Store} {path : String} {place : Place} {object other : Nat} {bytes : Bytes}

theorem resolve_eq_ok_iff :
    s.resolve path = .ok object ↔ ∃ place, s.find path = .ok (.file place object) := by
  rw [resolve]
  rcases s.find path with _ | _ | ⟨place, object'⟩ | _ <;>
    simp [bind, Except.bind, pure, Except.pure, throw, throwThe, MonadExceptOf.throw]

/-! ### Writing to an object -/

theorem follow_overwrite (directory : Place) (components : List (List Char)) :
    (s.overwrite object bytes).follow directory components = s.follow directory components := by
  induction components generalizing directory with
  | nil => rfl
  | cons name rest ih =>
    rw [follow, follow]
    simp only [ih]
    rfl

theorem find_overwrite : (s.overwrite object bytes).find path = s.find path := by
  rw [find, find, follow_overwrite]

/-- No path leads elsewhere when an object is written to. -/
@[simp] theorem resolve_overwrite : (s.overwrite object bytes).resolve path = s.resolve path := by
  rw [resolve, resolve, find_overwrite]

theorem contents_overwrite (there : object < s.objects.size) :
    (s.overwrite object bytes).contents object = bytes := by
  simp [overwrite, contents, there]

theorem contents_overwrite_of_ne (apart : other ≠ object) :
    (s.overwrite object bytes).contents other = s.contents other := by
  simp [overwrite, contents, Array.getElem?_setIfInBounds_ne apart.symm]

@[simp] theorem size_overwrite : (s.overwrite object bytes).objects.size = s.objects.size := by
  simp [overwrite]

theorem lt_size_of_contents (some : s.contents object ≠ #[]) : object < s.objects.size := by
  apply Nat.lt_of_not_le
  intro behind
  apply some
  simp [contents, Array.getD, Nat.not_lt.2 behind]

/-! ### Giving a name a new object -/

theorem lookup_assign (place' : Place) :
    (s.assign place bytes).names.lookup place' =
      if place' = place then some s.objects.size else s.names.lookup place' := by
  have others (names : List (Place × Nat)) (ne : place' ≠ place) :
      (names.filter (·.1 != place)).lookup place' = names.lookup place' := by
    induction names with
    | nil => rfl
    | cons entry rest ih =>
      by_cases same : entry.1 = place
      · have different : (place' == entry.1) = false := by simp [same, ne]
        rw [List.filter_cons_of_neg (by simp [same]), ih, List.lookup_cons, different]
      · rw [List.filter_cons_of_pos (by simp [same]), List.lookup_cons, List.lookup_cons, ih]
  by_cases same : place' = place
  · simp [assign, same]
  · have different : (place' == place) = false := by simp [same]
    rw [if_neg same, ← others s.names same]
    simp [assign, List.lookup_cons, different]

/-- What led to a name leads to it still, and so to its new object if it is the one given. -/
theorem follow_assign {place' directory : Place} {components : List (List Char)}
    (found : s.follow directory components = .ok (.file place' object)) :
    (s.assign place bytes).follow directory components =
      .ok (.file place' (if place' = place then s.objects.size else object)) := by
  induction components generalizing directory with
  | nil => exact nomatch found
  | cons name rest ih =>
    have same : (s.assign place bytes).directories = s.directories := rfl
    rw [follow] at found ⊢
    by_cases up : name = Path.parent
    · rw [if_pos up] at found ⊢
      exact ih found
    · rw [if_neg up] at found ⊢
      by_cases long : Path.nameLimit < (String.ofList name).utf8ByteSize
      · rw [if_pos long] at found
        exact nomatch found
      · rw [if_neg long] at found ⊢
        by_cases known : directory ++ [name] ∈ s.directories
        · simp only [same, if_pos known] at found ⊢
          exact ih found
        · simp only [same, if_neg known, lookup_assign] at found ⊢
          cases named : s.names.lookup (directory ++ [name]) with
          | none =>
            rw [named] at found
            cases last : rest.isEmpty <;> simp [last] at found
          | some object' =>
            rw [named] at found
            cases last : rest.isEmpty with
            | false => simp [last] at found
            | true =>
              obtain ⟨rfl, rfl⟩ : directory ++ [name] = place' ∧ object' = object := by
                simpa [last] using found
              by_cases given : directory ++ [name] = place <;> simp [given]

theorem find_assign {place' : Place} (found : s.find path = .ok (.file place' object)) :
    (s.assign place bytes).find path =
      .ok (.file place' (if place' = place then s.objects.size else object)) := by
  rw [find] at found ⊢
  by_cases unnamed : path.isEmpty
  · rw [if_pos unnamed] at found
    exact nomatch found
  · rw [if_neg unnamed] at found ⊢
    by_cases zero : '\x00' ∈ path.toList
    · rw [if_pos zero] at found
      exact nomatch found
    · rw [if_neg zero] at found ⊢
      by_cases long : Path.sizeLimit < path.utf8ByteSize
      · rw [if_pos long] at found
        exact nomatch found
      · rw [if_neg long] at found ⊢
        obtain ⟨end', followed, ends⟩ := bind_eq_ok_iff.1 found
        cases end' with
        | directory => exact nomatch ends
        | vacant place'' => exact nomatch ends
        | file place'' object' =>
          by_cases slash : Path.endsInDirectory path
          · simp [slash] at ends
          · obtain ⟨rfl, rfl⟩ : place'' = place' ∧ object' = object := by simpa [slash] using ends
            rw [follow_assign followed]
            exact if_neg slash

theorem lookup_of_follow {directory : Place} {components : List (List Char)}
    (found : s.follow directory components = .ok (.file place object)) :
    s.names.lookup place = some object := by
  fun_induction follow s directory components with
  | case1 => cases found
  | case2 directory rest ih => exact ih found
  | case3 => cases found
  | case4 directory name rest _ _ place' _ ih => exact ih found
  | case5 directory name rest _ _ place' _ object' named last =>
    obtain ⟨rfl, rfl⟩ := Found.file.inj (Except.ok.inj found)
    exact named
  | case6 | case7 | case8 => cases found

theorem lookup_of_find (found : s.find path = .ok (.file place object)) :
    s.names.lookup place = some object := by
  unfold find at found
  split at found
  · cases found
  split at found
  · cases found
  split at found
  · cases found
  obtain ⟨end', followed, ends⟩ := bind_eq_ok_iff.1 found
  split at ends
  · split at ends
    · cases ends
    · obtain ⟨rfl, rfl⟩ := Found.file.inj (Except.ok.inj ends)
      exact lookup_of_follow followed
  · next other =>
    obtain rfl := Except.ok.inj ends
    exact absurd rfl (other _ _)

theorem resolve_assign {place' : Place} (found : s.find path = .ok (.file place' object)) :
    (s.assign place bytes).resolve path =
      .ok (if place' = place then s.objects.size else object) :=
  resolve_eq_ok_iff.2 ⟨place', find_assign found⟩

theorem contents_assign : (s.assign place bytes).contents s.objects.size = bytes := by
  simp [assign, contents]

theorem contents_assign_of_lt (there : other < s.objects.size) :
    (s.assign place bytes).contents other = s.contents other := by
  have still : other < s.objects.size + 1 := Nat.lt_succ_of_lt there
  simp [assign, contents, there, still, Array.getElem_push_lt]

/-- A file that is put in the place of the one a path names has that path, and the bytes it
was made with; the old one keeps its bytes, wherever it is still open. -/
theorem replace_eq (named : s.resolve path = .ok object) (bytes : Bytes) :
    ∃ s', s.replace path bytes = .ok s' ∧ s'.resolve path = .ok s.objects.size ∧
      s'.contents s.objects.size = bytes ∧ s.objects.size < s'.objects.size ∧
      ∀ other < s.objects.size, s'.contents other = s.contents other := by
  obtain ⟨place, found⟩ := resolve_eq_ok_iff.1 named
  refine ⟨s.assign place bytes, ?_, (resolve_assign found).trans (by rw [if_pos rfl]),
    contents_assign, ?_, fun other there => contents_assign_of_lt there⟩
  · rw [replace, found]
    rfl
  · simp [assign]

end Cassette.Store
