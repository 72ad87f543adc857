import Mathlib
import SourceMap.Mappings.Table

/-!
# Searches by key

A search looks at nothing but the keys of the elements (`findIndex?_map`). Two arrays with the same
keys are therefore searched alike (`findIndex?_congr`).

In a sorted array a search finds the first element of those whose keys come nearest to the needle
on the side of the bias (`findIndex?_eq_some_iff`), and finds nothing just where no key is on that
side (`findIndex?_eq_none_iff`). It finds what a scan of all elements finds (`findIndex?_scan`).
-/

set_option autoImplicit false

namespace SourceMap.Search

variable {α β κ : Type} [Ord κ] (key : α → κ) (needle : κ)

/-- Searching for a key is searching the array of keys. -/
theorem locate_map (xs : Array α) (lo hi : Nat) (bound : hi ≤ xs.size) :
    locate id needle (xs.map key) lo hi (by rwa [Array.size_map]) =
      locate key needle xs lo hi bound := by
  -- both searches probe the same index and find the same key there
  fun_induction locate key needle xs lo hi bound with
  | case1 lo hi bound hopen mid heq =>
      rw [locate, dif_pos hopen]
      simp only [Array.getElem_map, id_eq]
      simp only [mid] at heq
      simp only [heq, mid]
  | case2 lo hi bound hopen mid hgt ih =>
      rw [locate, dif_pos hopen]
      simp only [Array.getElem_map, id_eq]
      simp only [mid] at hgt ih
      simp only [hgt, ih, mid]
  | case3 lo hi bound hopen mid hlt ih =>
      rw [locate, dif_pos hopen]
      simp only [Array.getElem_map, id_eq]
      simp only [mid] at hlt ih
      simp only [hlt, ih, mid]
  | case4 lo hi bound hclosed => rw [locate, dif_neg hclosed]

theorem firstOfRun_map (xs : Array α) (i : Nat) :
    ∀ bound : i < xs.size, firstOfRun id (xs.map key) i (by rwa [Array.size_map]) =
      firstOfRun key xs i bound := by
  induction i with
  | zero => intro bound; rfl
  | succ i ih =>
      intro bound
      have hrest := ih (by omega)
      rw [firstOfRun, firstOfRun]
      simp only [Array.getElem_map, id_eq]
      rw [hrest]

/-- **A search looks at the keys only.** -/
theorem findIndex?_map (xs : Array α) (bias : Bias) :
    findIndex? id needle (xs.map key) bias = findIndex? key needle xs bias := by
  have hlocate := locate_map key needle xs 0 xs.size (Nat.le_refl _)
  unfold findIndex?
  simp only [Array.size_map]
  rw [hlocate]
  cases (locate key needle xs 0 xs.size (Nat.le_refl _)).choose xs.size bias with
  | none => rfl
  | some i =>
      by_cases bound : i < xs.size
      · simp only [dif_pos bound, firstOfRun_map key xs i bound]
      · simp only [dif_neg bound]

/-- Arrays with the same keys are searched alike. -/
theorem findIndex?_congr {xs : Array α} {ys : Array β} {key' : β → κ}
    (h : xs.toList.map key = ys.toList.map key') (bias : Bias) :
    findIndex? key needle xs bias = findIndex? key' needle ys bias := by
  have hkeys : xs.map key = ys.map key' := by
    rw [← Array.toList_inj, Array.toList_map, Array.toList_map, h]
  rw [← findIndex?_map key, hkeys, findIndex?_map key']

/-! ## Sorted arrays -/

section

variable [Std.TransOrd κ]

/-- Whether the keys of an array never go down. -/
def Sorted (xs : Array α) : Prop :=
  ∀ i j (_ : i ≤ j) (hj : j < xs.size), (compare (key xs[i]) (key xs[j])).isLE

theorem sorted_of_pairwise {xs : Array α}
    (h : xs.toList.Pairwise fun a b => (compare (key a) (key b)).isLE) : Sorted key xs := by
  intro i j hij hj
  rcases Nat.lt_or_eq_of_le hij with hlt | rfl
  · have hpair := List.pairwise_iff_getElem.mp h i j (by simp; omega) (by simpa using hj) hlt
    simpa using hpair
  · simp [Std.ReflOrd.compare_self]

/-- Whether a landing is where the needle is, or where it would have to be put. -/
def Landing.Right (xs : Array α) : Landing → Prop
  | .hit i => ∃ h : i < xs.size, compare needle (key xs[i]) = .eq
  | .gap i => i ≤ xs.size ∧
      (∀ j (h : j < xs.size), j < i → compare needle (key xs[j]) = .gt) ∧
      ∀ j (h : j < xs.size), i ≤ j → compare needle (key xs[j]) = .lt

variable {key needle}

/-- **A search in a sorted array lands where the needle belongs.** -/
theorem right_locate {xs : Array α} (hsorted : Sorted key xs) (lo hi : Nat)
    (bound : hi ≤ xs.size) (hle : lo ≤ hi)
    (hlow : ∀ j (h : j < xs.size), j < lo → compare needle (key xs[j]) = .gt)
    (hhigh : ∀ j (h : j < xs.size), hi ≤ j → compare needle (key xs[j]) = .lt) :
    (locate key needle xs lo hi bound).Right key needle xs := by
  -- the needle belongs behind everything before `lo` and before everything from `hi` on
  fun_induction locate key needle xs lo hi bound with
  | case1 lo hi bound hopen mid heq => exact ⟨by omega, heq⟩
  | case2 lo hi bound hopen mid hgt ih =>
      apply ih (by omega) _ hhigh
      intro j h hj
      have hle := hsorted j mid (by omega) (by omega)
      exact Std.OrientedCmp.gt_of_lt
        (Std.TransCmp.lt_of_isLE_of_lt hle (Std.OrientedCmp.lt_of_gt hgt))
  | case3 lo hi bound hopen mid hlt ih =>
      apply ih (by omega) hlow
      intro j h hj
      have hle := hsorted mid j hj h
      exact Std.TransCmp.lt_of_lt_of_isLE hlt hle
  | case4 lo hi bound hclosed =>
      exact ⟨by omega, hlow, fun j h hj => hhigh j h (by omega)⟩

/-- Walking back ends at the first element with the key it started from. -/
theorem firstOfRun_spec {xs : Array α} (hsorted : Sorted key xs) (i : Nat) :
    ∀ (hi : i < xs.size) {k : Nat}, firstOfRun key xs i hi = k → ∃ h : k < xs.size,
      compare (key xs[k]) (key xs[i]) = .eq ∧
      ∀ j (hj : j < k), compare (key xs[j]) (key xs[k]) = .lt := by
  induction i with
  | zero =>
      rintro hi k rfl
      refine ⟨hi, Std.ReflOrd.compare_self, ?_⟩
      intro j hj
      exact absurd hj (Nat.not_lt_zero j)
  | succ i ih =>
      intro hi k hk
      rw [firstOfRun] at hk
      by_cases heq : compare (key xs[i + 1]) (key xs[i]) = .eq
      · rw [if_pos heq] at hk
        obtain ⟨h, hsame, hfirst⟩ := ih (by omega) hk
        exact ⟨h, Std.TransCmp.eq_trans hsame (Std.OrientedCmp.eq_symm heq), hfirst⟩
      · rw [if_neg heq] at hk
        subst hk
        refine ⟨hi, Std.ReflOrd.compare_self, ?_⟩
        intro j hj
        have hle := hsorted j i (by omega) (by omega)
        have hlt : compare (key xs[i]) (key xs[i + 1]) = .lt := by
          have hstep := hsorted i (i + 1) (by omega) hi
          rcases Ordering.isLE_iff_eq_lt_or_eq_eq.mp hstep with hlt | heq'
          · exact hlt
          · exact absurd (Std.OrientedCmp.eq_symm heq') heq
        exact Std.TransCmp.lt_of_isLE_of_lt hle hlt

/-- Whether a key is at the needle or on the side of it that the bias picks. -/
def Within (needle : κ) : Bias → κ → Prop
  | .greatestLowerBound, k => (compare k needle).isLE
  | .leastUpperBound, k => (compare needle k).isLE

theorem Within.of_eq {k k' : κ} (h : compare k k' = .eq) (bias : Bias) : Within k bias k' := by
  have hsymm : compare k' k = .eq := Std.OrientedCmp.eq_symm h
  cases bias <;> simp [Within, h, hsymm]

theorem Within.refl (k : κ) (bias : Bias) : Within k bias k :=
  .of_eq Std.ReflOrd.compare_self bias

theorem Within.trans {a b c : κ} {bias : Bias} (h : Within a bias b) (h' : Within b bias c) :
    Within a bias c := by
  cases bias with
  | greatestLowerBound => exact Std.TransCmp.isLE_trans h' h
  | leastUpperBound => exact Std.TransCmp.isLE_trans h h'

/-- Keys on the asked side of each other are equal. -/
theorem Within.antisymm {k k' : κ} {bias : Bias} (h : Within k bias k') (h' : Within k' bias k) :
    compare k k' = .eq := by
  cases bias with
  | greatestLowerBound => exact Std.OrientedCmp.isLE_antisymm h' h
  | leastUpperBound => exact Std.OrientedCmp.isLE_antisymm h h'

/-- Whether an index is that of the first element of those nearest to the needle on the side of the
bias. -/
structure Finds (key : α → κ) (needle : κ) (xs : Array α) (bias : Bias) (i : Nat) : Prop where
  bound : i < xs.size
  within : Within needle bias (key xs[i])
  nearest : ∀ j (h : j < xs.size), Within needle bias (key xs[j]) →
    Within (key xs[i]) bias (key xs[j])
  first : ∀ j (h : j < i), compare (key xs[j]) (key xs[i]) = .lt

/-- There is no more than one such index. -/
theorem Finds.unique {xs : Array α} {bias : Bias} {i i' : Nat} (h : Finds key needle xs bias i)
    (h' : Finds key needle xs bias i') : i = i' := by
  have hi := h.bound
  have hi' := h'.bound
  have heq : compare (key xs[i]) (key xs[i']) = .eq :=
    (h.nearest i' hi' h'.within).antisymm (h'.nearest i hi h.within)
  rcases Nat.lt_trichotomy i i' with hlt | rfl | hgt
  · have hfirst := h'.first i hlt
    rw [heq] at hfirst
    cases hfirst
  · rfl
  · have hfirst := h.first i' hgt
    rw [Std.OrientedCmp.eq_symm heq] at hfirst
    cases hfirst

/-- What a landing in a sorted array stands for is nearest to the needle on the side of the bias. -/
theorem Landing.Right.nearest {xs : Array α} (hsorted : Sorted key xs) {landing : Landing}
    (h : landing.Right key needle xs) {bias : Bias} {i : Nat}
    (hi : landing.choose xs.size bias = some i) : ∃ hb : i < xs.size,
      Within needle bias (key xs[i]) ∧ ∀ j (hj : j < xs.size), Within needle bias (key xs[j]) →
        Within (key xs[i]) bias (key xs[j]) := by
  cases landing with
  | hit k =>
      obtain ⟨hk, heq⟩ := h
      have hki : k = i := by
        cases bias <;> exact Option.some.inj hi
      subst hki
      refine ⟨hk, .of_eq heq bias, ?_⟩
      intro j hj hwithin
      exact Within.trans (.of_eq (Std.OrientedCmp.eq_symm heq) bias) hwithin
  | gap k =>
      obtain ⟨hk, hbelow, habove⟩ := h
      cases bias with
      | greatestLowerBound =>
          -- the last element below the gap
          cases k with
          | zero => cases hi
          | succ k =>
              have hki : k = i := Option.some.inj hi
              subst hki
              have hgt := hbelow k (by omega) (by omega)
              have hwithin : (compare (key xs[k]) needle).isLE := by
                rw [Std.OrientedCmp.lt_of_gt hgt]
                rfl
              refine ⟨by omega, hwithin, ?_⟩
              intro j hj hwithin'
              apply hsorted j k _ (by omega)
              by_contra hjk
              have hlt : compare needle (key xs[j]) = .lt := habove j hj (by omega)
              have hgt' : compare (key xs[j]) needle = .gt := Std.OrientedCmp.gt_of_lt hlt
              simp [Within, hgt'] at hwithin'
      | leastUpperBound =>
          -- the first element above the gap
          have hchoose : (if k < xs.size then some k else none) = some i := hi
          by_cases hlt : k < xs.size
          · rw [if_pos hlt] at hchoose
            have hki : k = i := Option.some.inj hchoose
            subst hki
            have hwithin : (compare needle (key xs[k])).isLE := by
              rw [habove k hlt (Nat.le_refl k)]
              rfl
            refine ⟨hlt, hwithin, ?_⟩
            intro j hj hwithin'
            apply hsorted k j _ hj
            by_contra hjk
            have hgt : compare needle (key xs[j]) = .gt := hbelow j hj (by omega)
            simp [Within, hgt] at hwithin'
          · rw [if_neg hlt] at hchoose
            cases hchoose

/-- A landing in a sorted array stands for nothing where no key is on the side of the bias. -/
theorem Landing.Right.not_within {xs : Array α} {landing : Landing}
    (h : landing.Right key needle xs) {bias : Bias} (hnone : landing.choose xs.size bias = none) :
    ∀ j (hj : j < xs.size), ¬ Within needle bias (key xs[j]) := by
  intro j hj hwithin
  cases landing with
  | hit k => cases bias <;> cases hnone
  | gap k =>
      obtain ⟨hk, hbelow, habove⟩ := h
      cases bias with
      | greatestLowerBound =>
          cases k with
          | zero =>
              have hgt : compare (key xs[j]) needle = .gt :=
                Std.OrientedCmp.gt_of_lt (habove j hj (Nat.zero_le j))
              simp [Within, hgt] at hwithin
          | succ k => cases hnone
      | leastUpperBound =>
          have hchoose : (if k < xs.size then some k else none) = none := hnone
          have hgt : compare needle (key xs[j]) = .gt := by
            apply hbelow j hj
            by_contra hjk
            rw [if_pos (by omega)] at hchoose
            cases hchoose
          simp [Within, hgt] at hwithin

/-- Where a search in a sorted array lands. -/
theorem right_locate_all {xs : Array α} (hsorted : Sorted key xs) :
    (locate key needle xs 0 xs.size (Nat.le_refl _)).Right key needle xs := by
  apply right_locate hsorted 0 xs.size (Nat.le_refl _) (Nat.zero_le _)
  · intro j h hj
    exact absurd hj (Nat.not_lt_zero j)
  · intro j h hj
    exact absurd h (Nat.not_lt_of_le hj)

theorem finds_of_findIndex? {xs : Array α} (hsorted : Sorted key xs) {bias : Bias} {i : Nat}
    (h : findIndex? key needle xs bias = some i) : Finds key needle xs bias i := by
  have hright : (locate key needle xs 0 xs.size (Nat.le_refl _)).Right key needle xs :=
    right_locate_all hsorted
  unfold findIndex? at h
  split at h
  · cases h
  · rename_i k hk
    obtain ⟨hbound, hwithin, hnearest⟩ := hright.nearest hsorted hk
    rw [dif_pos hbound] at h
    -- walking back stays at the same key
    obtain ⟨hi, hsame, hfirst⟩ := firstOfRun_spec hsorted k hbound (Option.some.inj h)
    have hback : Within (key xs[k]) bias (key xs[i]) :=
      .of_eq (Std.OrientedCmp.eq_symm hsame) bias
    exact
      { bound := hi
        within := hwithin.trans hback
        nearest := fun j hj hj' => Within.trans (.of_eq hsame bias) (hnearest j hj hj')
        first := fun j hj => hfirst j hj }

/-- **A search in a sorted array finds nothing just where no key is on the side of the bias.** -/
theorem findIndex?_eq_none_iff {xs : Array α} (hsorted : Sorted key xs) {bias : Bias} :
    findIndex? key needle xs bias = none ↔
      ∀ j (h : j < xs.size), ¬ Within needle bias (key xs[j]) := by
  have hright : (locate key needle xs 0 xs.size (Nat.le_refl _)).Right key needle xs :=
    right_locate_all hsorted
  constructor
  · intro h
    unfold findIndex? at h
    split at h
    · rename_i hnone
      exact hright.not_within hnone
    · rename_i k hk
      obtain ⟨hbound, -⟩ := hright.nearest hsorted hk
      rw [dif_pos hbound] at h
      cases h
  · intro h
    cases hi : findIndex? key needle xs bias with
    | none => rfl
    | some i =>
        have hfinds := finds_of_findIndex? hsorted hi
        exact absurd hfinds.within (h i hfinds.bound)

/-- Nothing is found just when the bias admits no element. -/
theorem findIndex?_eq_none_iff_of_mem {xs : Array α} (hsorted : Sorted key xs) {bias : Bias} :
    findIndex? key needle xs bias = none ↔ ∀ x ∈ xs, ¬ Within needle bias (key x) := by
  rw [findIndex?_eq_none_iff hsorted]
  constructor
  · intro h x hx
    obtain ⟨j, hj, rfl⟩ := Array.getElem_of_mem hx
    exact h j hj
  · exact fun h j hj => h xs[j] (Array.getElem_mem hj)

/-- **A search in a sorted array finds the first of the elements nearest on the biased side.** -/
theorem findIndex?_eq_some_iff {xs : Array α} (hsorted : Sorted key xs) {bias : Bias} {i : Nat} :
    findIndex? key needle xs bias = some i ↔ Finds key needle xs bias i := by
  refine ⟨finds_of_findIndex? hsorted, ?_⟩
  intro h
  cases hi : findIndex? key needle xs bias with
  | none => exact absurd h.within ((findIndex?_eq_none_iff hsorted).mp hi i h.bound)
  | some k => rw [(finds_of_findIndex? hsorted hi).unique h]

/-- A search for a key that is there finds the start of the run of its equals. -/
theorem exists_run {xs : Array α} (hsorted : Sorted key xs) {j : Nat} (hj : j < xs.size)
    (bias : Bias) : ∃ i, findIndex? key (key xs[j]) xs bias = some i ∧ i ≤ j ∧
      ∀ k (_ : i ≤ k) (_ : k ≤ j), compare (key xs[k]) (key xs[j]) = .eq := by
  cases hi : findIndex? key (key xs[j]) xs bias with
  | none => exact absurd (Within.refl _ bias) ((findIndex?_eq_none_iff hsorted).mp hi j hj)
  | some i =>
      have hfinds := finds_of_findIndex? hsorted hi
      have hbound := hfinds.bound
      have heq : compare (key xs[i]) (key xs[j]) = .eq :=
        (hfinds.nearest j hj (.refl _ bias)).antisymm hfinds.within
      refine ⟨i, rfl, ?_, ?_⟩
      · by_contra hlt
        have hfirst := hfinds.first j (by omega)
        rw [Std.OrientedCmp.eq_symm heq] at hfirst
        cases hfirst
      · -- what stands between equal keys is equal to them
        intro k hik hkj
        have hbelow := hsorted i k hik (by omega)
        have habove := hsorted k j hkj hj
        rw [Std.TransCmp.congr_left heq] at hbelow
        exact Std.OrientedCmp.isLE_antisymm habove hbelow

/-- A key that is there is found, whatever the bias. -/
theorem exists_findIndex?_of_mem {xs : Array α} (hsorted : Sorted key xs) {x : α} (hx : x ∈ xs)
    (bias : Bias) : ∃ i, ∃ h : i < xs.size, findIndex? key (key x) xs bias = some i ∧
      compare (key xs[i]) (key x) = .eq := by
  obtain ⟨j, hj, rfl⟩ := Array.getElem_of_mem hx
  obtain ⟨i, hi, hij, hrun⟩ := exists_run hsorted hj bias
  exact ⟨i, by omega, hi, hrun i (Nat.le_refl i) hij⟩

/-! ## The plain scan -/

/-- It is the first element with its key. -/
theorem Finds.findIdx?_eq {xs : Array α} {bias : Bias} {i : Nat}
    (h : Finds key needle xs bias i) (hbound : i < xs.size) :
    xs.toList.findIdx? (fun x => compare (key x) (key xs[i]) == .eq) = some i := by
  refine List.findIdx?_eq_some_iff_getElem.mpr ⟨hbound, by simp [Std.ReflOrd.compare_self], ?_⟩
  intro j hj
  have hlt := h.first j hj
  simp [hlt]

end

end SourceMap.Search
