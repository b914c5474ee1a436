import DecodeTrie.Render.Names
import Mathlib.Data.List.Nodup
import Mathlib.Data.List.Perm.Subperm

/-!
# Claimed names are free

A claim takes the first candidate that nobody has claimed. The candidates for one name differ from
each other, so among one more candidates than there are claimed names one is free
(`freeName_not_mem`). Hence the names which a row of claims gets differ from each other and from
all that were claimed before (`nodup_claimedNames`, `disjoint_claimedNames`).

The other facts say which names a row of claims can get: the name that a request asks for is claimed
afterwards in any case (`baseName_mem_claimedNames`), and a name that is not asked for carries a
number (`exists_candidate_of_mem_claimedNames`), so it ends in a digit.
-/

namespace DecodeTrie.Render

/-! ## Candidates -/

@[simp] theorem candidate_zero (base : String) : candidate base 0 = base := rfl

theorem toList_candidate_succ (base : String) (n : Nat) :
    (candidate base (n + 1)).toList = base.toList ++ '_' :: Nat.toDigits 10 (n + 2) := by
  simp [candidate]

theorem candidate_succ_ne (base : String) (n : Nat) : candidate base (n + 1) ≠ base := by
  intro h
  have hlist := congrArg String.toList h
  simp [toList_candidate_succ] at hlist

theorem candidate_injective (base : String) : Function.Injective (candidate base) := by
  intro m n h
  cases m with
  | zero =>
    cases n with
    | zero => rfl
    | succ n => exact absurd h.symm (candidate_succ_ne base n)
  | succ m =>
    cases n with
    | zero => exact absurd h (candidate_succ_ne base m)
    | succ n =>
      have hdigits : Nat.toDigits 10 (m + 2) = Nat.toDigits 10 (n + 2) := by
        simpa [toList_candidate_succ] using congrArg String.toList h
      have hvalue := congrArg (fun digits ↦ Nat.ofDigitChars 10 digits 0) hdigits
      simpa [Nat.ofDigitChars_ten_toDigits] using hvalue

/-- A candidate that is not the name itself ends in a digit. -/
theorem isDigit_of_mem_getLast?_candidate {base : String} {n : Nat} {c : Char}
    (h : c ∈ (candidate base (n + 1)).toList.getLast?) : c.isDigit := by
  rw [toList_candidate_succ, List.getLast?_append_of_ne_nil _ (List.cons_ne_nil _ _),
    List.getLast?_cons_of_ne_nil Nat.toDigits_ne_nil] at h
  exact Nat.isDigit_of_mem_toDigits (by decide) (by decide) (List.mem_of_mem_getLast? h)

/-- Among one more candidates than there are claimed names one is not claimed. -/
theorem exists_candidate_not_mem (taken : Names) (base : String) :
    ∃ n < taken.length + 1, candidate base n ∉ taken := by
  by_contra! h
  have hsub : (List.range (taken.length + 1)).map (candidate base) ⊆ taken := by
    intro name hname
    obtain ⟨n, hn, rfl⟩ := List.mem_map.mp hname
    exact h n (List.mem_range.mp hn)
  have hle := (List.subperm_of_subset
    (List.nodup_range.map (candidate_injective base)) hsub).length_le
  rw [List.length_map, List.length_range] at hle
  omega

/-- **The name that is chosen** is the first candidate which is not claimed. -/
theorem exists_freeName_eq_first (taken : Names) (base : String) :
    ∃ n ≤ taken.length, freeName taken base = candidate base n ∧ candidate base n ∉ taken ∧
      ∀ m < n, candidate base m ∈ taken := by
  obtain ⟨m, hm, hfree⟩ := exists_candidate_not_mem taken base
  have hsome : ((List.range (taken.length + 1)).findSome? fun n ↦
      if taken.contains (candidate base n) then none else some (candidate base n)).isSome := by
    rw [List.findSome?_isSome_iff]
    exact ⟨m, List.mem_range.mpr hm, by simp [hfree]⟩
  obtain ⟨name, hname⟩ := Option.isSome_iff_exists.mp hsome
  obtain ⟨before, n, after, hrange, hn, hbefore⟩ := List.findSome?_eq_some_iff.mp hname
  split at hn
  · cases hn
  · rename_i hnot
    cases hn
    -- The candidates that were tried before are all those of smaller number.
    obtain ⟨k, -, hk, hafter⟩ := List.range'_eq_append_iff.mp (List.range_eq_range' ▸ hrange)
    rw [eq_comm, List.range'_eq_cons_iff] at hafter
    obtain ⟨rfl, hpos, -⟩ := hafter
    refine ⟨_, ?_, by rw [freeName, hname, Option.getD_some], by simpa using hnot, fun m hm ↦ ?_⟩
    · omega
    · have hnone := hbefore m (by rw [hk, List.mem_range']; exact ⟨m, by omega, by omega⟩)
      simpa using hnone

/-- The name that is chosen is a candidate which is not claimed. -/
theorem exists_freeName_eq_candidate (taken : Names) (base : String) :
    ∃ n, freeName taken base = candidate base n ∧ candidate base n ∉ taken := by
  obtain ⟨n, -, hname, hfree, -⟩ := exists_freeName_eq_first taken base
  exact ⟨n, hname, hfree⟩

theorem freeName_not_mem (taken : Names) (base : String) : freeName taken base ∉ taken := by
  obtain ⟨n, hname, hfree⟩ := exists_freeName_eq_candidate taken base
  rwa [hname]

/-- A name that nobody has claimed is given as it is. -/
theorem freeName_of_not_mem {taken : Names} {base : String} (h : base ∉ taken) :
    freeName taken base = base := by
  rw [freeName, List.range_succ_eq_map, List.findSome?_cons_of_isSome (by simp [h])]
  simp [h]

/-! ## A row of claims -/

/-- A request for a name: the class of a symbol and its own name. -/
abbrev Request := String × String

/-- The name that a request asks for. -/
def Request.baseName (symbolPrefix : String) (r : Request) : String :=
  Render.baseName symbolPrefix r.1 r.2

theorem prefix_constantName (cls raw : String) : cls.toList <+: constantName cls raw := by
  simp only [constantName]
  split
  · next h => exact List.isPrefixOf_iff_prefix.mp h
  · exact List.prefix_append _ _

/-- Behind the prefix of all names, a candidate starts with the class that is asked for. -/
theorem Request.exists_candidate_eq (symbolPrefix : String) (r : Request) (n : Nat) :
    ∃ rest, candidate (r.baseName symbolPrefix) n = symbolPrefix ++ rest ∧
      r.1.toList <+: rest.toList := by
  have hcls := prefix_constantName r.1 r.2
  cases n with
  | zero => exact ⟨_, rfl, by rwa [String.toList_ofList]⟩
  | succ n =>
    refine ⟨String.ofList (constantName r.1 r.2) ++ "_" ++ toString (n + 2), ?_, ?_⟩
    · simp only [candidate, Request.baseName, Render.baseName, String.append_assoc]
    · rw [String.append_assoc, String.toList_append, String.toList_ofList]
      exact hcls.trans (List.prefix_append _ _)

/-- The names that a row of requests gets. -/
def claimedNames (symbolPrefix : String) : List Request → Names → Names
  | [], _ => []
  | r :: requests, taken =>
    let name := freeName taken (r.baseName symbolPrefix)
    name :: claimedNames symbolPrefix requests (name :: taken)

variable {symbolPrefix : String} {requests : List Request} {taken : Names} {name : String}

theorem claimedNames_append (requests' : List Request) :
    claimedNames symbolPrefix (requests ++ requests') taken =
      claimedNames symbolPrefix requests taken ++ claimedNames symbolPrefix requests'
        ((claimedNames symbolPrefix requests taken).reverse ++ taken) := by
  induction requests generalizing taken with
  | nil => rfl
  | cons r requests ih => simp [claimedNames, ih]

/-- No name is given that was claimed before. -/
theorem not_mem_taken_of_mem_claimedNames (h : name ∈ claimedNames symbolPrefix requests taken) :
    name ∉ taken := by
  induction requests generalizing taken with
  | nil => cases h
  | cons r requests ih =>
    rcases List.mem_cons.mp h with rfl | h
    · exact freeName_not_mem taken _
    · exact fun hmem ↦ ih h (List.mem_cons_of_mem _ hmem)

/-- **No name is given twice.** -/
theorem nodup_claimedNames : (claimedNames symbolPrefix requests taken).Nodup := by
  induction requests generalizing taken with
  | nil => exact List.nodup_nil
  | cons r requests ih =>
    exact ih.cons fun hmem ↦ not_mem_taken_of_mem_claimedNames hmem List.mem_cons_self

/-- A name that is given is a candidate of one of the requests. -/
theorem exists_candidate_of_mem_claimedNames
    (h : name ∈ claimedNames symbolPrefix requests taken) :
    ∃ r ∈ requests, ∃ n, name = candidate (r.baseName symbolPrefix) n := by
  induction requests generalizing taken with
  | nil => cases h
  | cons r requests ih =>
    rcases List.mem_cons.mp h with rfl | h
    · obtain ⟨n, hn, -⟩ := exists_freeName_eq_candidate taken (r.baseName symbolPrefix)
      exact ⟨r, List.mem_cons_self, n, hn⟩
    · obtain ⟨r', hr', hn⟩ := ih h
      exact ⟨r', List.mem_cons_of_mem _ hr', hn⟩

/-- A name that is asked for has been given before, or is given. -/
theorem baseName_mem_claimedNames (symbolPrefix : String) (taken : Names) {r : Request}
    (h : r ∈ requests) :
    r.baseName symbolPrefix ∈ taken ∨
      r.baseName symbolPrefix ∈ claimedNames symbolPrefix requests taken := by
  induction requests generalizing taken with
  | nil => cases h
  | cons r' requests ih =>
    rw [claimedNames, List.mem_cons]
    rcases List.mem_cons.mp h with rfl | h
    · by_cases hmem : r.baseName symbolPrefix ∈ taken
      · exact .inl hmem
      · exact .inr (.inl (freeName_of_not_mem hmem).symm)
    · rcases ih (freeName taken (r'.baseName symbolPrefix) :: taken) h with h | h
      · rcases List.mem_cons.mp h with h | h
        · exact .inr (.inl h)
        · exact .inl h
      · exact .inr (.inr h)

end DecodeTrie.Render
