import Mathlib.Data.List.Forall2

/-!
# Computations that can fail

A chain of computations succeeds exactly if each of its parts does. The laws below take successful
binds, maps and folds apart, so that proofs about a run never unfold the error monad.
-/

namespace BlockFlow

variable {ε α β γ : Type}

/-- A bind goes on with the result of its first part. -/
theorem ok_bind (a : α) (f : α → Except ε β) : (Except.ok a >>= f) = f a := rfl

/-- A bind succeeds exactly if both of its parts do. -/
theorem bind_eq_ok_iff {x : Except ε α} {f : α → Except ε β} {b : β} :
    x >>= f = .ok b ↔ ∃ a, x = .ok a ∧ f a = .ok b := by
  cases x with
  | error e => simp [bind, Except.bind]
  | ok a => simp [bind, Except.bind]

/-- A bind fails exactly if its first part does, or that succeeds and the second part fails. -/
theorem bind_eq_error_iff {x : Except ε α} {f : α → Except ε β} {e : ε} :
    x >>= f = .error e ↔ x = .error e ∨ ∃ a, x = .ok a ∧ f a = .error e := by
  cases x with
  | error e' => simp [bind, Except.bind]
  | ok a => simp [bind, Except.bind]

/-- A mapped computation succeeds exactly if the computation does. -/
theorem map_eq_ok_iff {x : Except ε α} {f : α → β} {b : β} :
    x.map f = .ok b ↔ ∃ a, x = .ok a ∧ f a = b := by
  cases x with
  | error e => simp [Except.map]
  | ok a => simp [Except.map]

/-- A mapped computation fails exactly if the computation does, and with its error. -/
theorem map_eq_error_iff {x : Except ε α} {f : α → β} {e : ε} :
    x.map f = .error e ↔ x = .error e := by
  cases x with
  | error e' => simp [Except.map]
  | ok a => simp [Except.map]

/-- Renaming the errors of a bind renames those of both of its parts. -/
theorem mapError_bind {δ : Type} (rename : ε → δ) (x : Except ε α) (f : α → Except ε β) :
    (x >>= f).mapError rename = x.mapError rename >>= fun a ↦ (f a).mapError rename := by
  cases x with
  | error e => rfl
  | ok a => rfl

/-- A computation that reports success has a result. -/
theorem exists_of_isOk {x : Except ε α} (h : x.isOk = true) : ∃ a, x = .ok a := by
  cases x with
  | error e => cases h
  | ok a => exact ⟨a, rfl⟩

/-- A map over a list succeeds exactly if it succeeds on every member. -/
theorem mapM_eq_ok_iff {f : α → Except ε β} {xs : List α} {ys : List β} :
    xs.mapM f = .ok ys ↔ List.Forall₂ (fun x y ↦ f x = .ok y) xs ys := by
  induction xs generalizing ys with
  | nil =>
    rw [List.mapM_nil, List.forall₂_nil_left_iff]
    exact ⟨fun h ↦ (Except.ok.inj h).symm, fun h ↦ h ▸ rfl⟩
  | cons x xs ih =>
    rw [List.mapM_cons, bind_eq_ok_iff, List.forall₂_cons_left_iff]
    constructor
    · rintro ⟨y, hy, h⟩
      obtain ⟨rest, hrest, h⟩ := bind_eq_ok_iff.mp h
      exact ⟨y, rest, hy, ih.mp hrest, (Except.ok.inj h).symm⟩
    · rintro ⟨y, rest, hy, hrest, rfl⟩
      exact ⟨y, hy, bind_eq_ok_iff.mpr ⟨rest, ih.mpr hrest, rfl⟩⟩

/-- The result of a map holds, at the position of each member, what the member gives. -/
theorem exists_getElem?_of_mapM {f : α → Except ε β} {xs : List α} {ys : List β}
    (h : xs.mapM f = .ok ys) {i : Nat} {x : α} (hx : xs[i]? = some x) :
    ∃ y, f x = .ok y ∧ ys[i]? = some y := by
  have hall := mapM_eq_ok_iff.mp h
  obtain ⟨hi, rfl⟩ := List.getElem?_eq_some_iff.mp hx
  have hi' : i < ys.length := hall.length_eq ▸ hi
  exact ⟨ys[i], hall.get hi hi', List.getElem?_eq_getElem hi'⟩

/-- Every member of the result of a map comes from a member of the list. -/
theorem exists_mem_of_mapM {f : α → Except ε β} {xs : List α} {ys : List β}
    (h : xs.mapM f = .ok ys) {y : β} (hy : y ∈ ys) : ∃ x ∈ xs, f x = .ok y := by
  have hall := mapM_eq_ok_iff.mp h
  obtain ⟨i, hi, rfl⟩ := List.getElem_of_mem hy
  have hi' : i < xs.length := hall.length_eq ▸ hi
  exact ⟨xs[i], List.getElem_mem hi', hall.get hi' hi⟩

/-- A map over a list succeeds if it succeeds on every member. -/
theorem exists_mapM {f : α → Except ε β} (xs : List α) (h : ∀ x ∈ xs, ∃ y, f x = .ok y) :
    ∃ ys, xs.mapM f = .ok ys := by
  induction xs with
  | nil => exact ⟨[], rfl⟩
  | cons x xs ih =>
    obtain ⟨y, hy⟩ := h x (by simp)
    obtain ⟨ys, hys⟩ := ih fun x hx ↦ h x (by simp [hx])
    have hrest := mapM_eq_ok_iff.mp hys
    exact ⟨y :: ys, mapM_eq_ok_iff.mpr (.cons hy hrest)⟩

/-- A map over a list fails exactly if it fails on a member and succeeds on all those before it;
the first error is the error of the map. -/
theorem mapM_eq_error_iff {f : α → Except ε β} {xs : List α} {e : ε} :
    xs.mapM f = .error e ↔
      ∃ pre x post, xs = pre ++ x :: post ∧ (∀ y ∈ pre, ∃ z, f y = .ok z) ∧ f x = .error e := by
  induction xs with
  | nil => simp [pure, Except.pure]
  | cons x xs ih =>
    rw [List.mapM_cons, bind_eq_error_iff]
    constructor
    · rintro (hx | ⟨y, hy, h⟩)
      · exact ⟨[], x, xs, rfl, by simp, hx⟩
      · rcases bind_eq_error_iff.mp h with h | ⟨ys, -, h⟩
        · obtain ⟨pre, z, post, rfl, hpre, hz⟩ := ih.mp h
          refine ⟨x :: pre, z, post, rfl, ?_, hz⟩
          intro w hw
          rcases List.mem_cons.mp hw with rfl | hw
          · exact ⟨y, hy⟩
          · exact hpre w hw
        · cases h
    · rintro ⟨pre, z, post, hsplit, hpre, hz⟩
      cases pre with
      | nil =>
        obtain ⟨rfl, rfl⟩ := List.cons.inj hsplit
        exact .inl hz
      | cons w pre =>
        obtain ⟨rfl, rfl⟩ := List.cons.inj hsplit
        obtain ⟨y, hy⟩ := hpre x (by simp)
        have hrest : (pre ++ z :: post).mapM f = .error e :=
          ih.mpr ⟨pre, z, post, rfl, fun u hu ↦ hpre u (by simp [hu]), hz⟩
        exact .inr ⟨y, hy, bind_eq_error_iff.mpr (.inl hrest)⟩

/-- Where a computation fails exactly if one of the things that it looks at is bad, and reports the
first one, so does the map of it over a list, with the first bad thing that any member looks at. -/
theorem mapM_eq_error_iff_find {f : α → Except ε β} {looks : α → List γ} {bad : γ → Bool}
    {report : γ → ε}
    (h : ∀ x e, f x = .error e ↔ ∃ y, (looks x).find? bad = some y ∧ e = report y)
    {xs : List α} {e : ε} :
    xs.mapM f = .error e ↔ ∃ y, (xs.flatMap looks).find? bad = some y ∧ e = report y := by
  induction xs with
  | nil => simp [pure, Except.pure]
  | cons x xs ih =>
    rw [List.mapM_cons, bind_eq_error_iff, h, List.flatMap_cons, List.find?_append]
    cases hx : (looks x).find? bad with
    | some y =>
      have herror : f x = .error (report y) := (h x _).mpr ⟨y, hx, rfl⟩
      simp [herror]
    | none =>
      have hok : ∃ a, f x = .ok a := by
        cases hf : f x with
        | ok a => exact ⟨a, rfl⟩
        | error e =>
          obtain ⟨y, hy, -⟩ := (h x e).mp hf
          rw [hx] at hy
          cases hy
      obtain ⟨a, ha⟩ := hok
      rw [Option.none_or, ← ih]
      simp [ha, bind_eq_error_iff, pure, Except.pure]

/-- A map over a list depends only on what is done to its members. -/
theorem mapM_congr {f g : α → Except ε β} {xs : List α} (h : ∀ x ∈ xs, f x = g x) :
    xs.mapM f = xs.mapM g := by
  induction xs with
  | nil => rfl
  | cons x xs ih =>
    rw [List.mapM_cons, List.mapM_cons, h x (by simp), ih fun y hy ↦ h y (by simp [hy])]

/-- A fold succeeds if none of its steps can fail. -/
theorem exists_foldlM {step : β → α → Except ε β} (xs : List α)
    (hstep : ∀ x ∈ xs, ∀ b, ∃ b', step b x = .ok b') (b : β) :
    ∃ b', xs.foldlM step b = .ok b' := by
  induction xs generalizing b with
  | nil => exact ⟨b, rfl⟩
  | cons x xs ih =>
    obtain ⟨next, hnext⟩ := hstep x (by simp) b
    obtain ⟨b', hb'⟩ := ih (fun y hy ↦ hstep y (by simp [hy])) next
    exact ⟨b', by rw [List.foldlM_cons, bind_eq_ok_iff]; exact ⟨next, hnext, hb'⟩⟩

/-- A fold that succeeds stays in step with a fold that cannot fail, if each of its steps does. -/
theorem foldlM_simulates {step : β → α → Except ε β} {total : γ → α → γ} (R : β → γ → Prop)
    (xs : List α) (hstep : ∀ x ∈ xs, ∀ b b' c, R b c → step b x = .ok b' → R b' (total c x))
    {b b' : β} {c : γ} (hR : R b c) (h : xs.foldlM step b = .ok b') :
    R b' (xs.foldl total c) := by
  induction xs generalizing b c with
  | nil =>
    cases h
    exact hR
  | cons x xs ih =>
    rw [List.foldlM_cons, bind_eq_ok_iff] at h
    obtain ⟨next, hnext, h⟩ := h
    have hnextR : R next (total c x) := hstep x (by simp) b next c hR hnext
    exact ih (fun y hy ↦ hstep y (by simp [hy])) hnextR h

/-- A fold that succeeds keeps what each of its steps keeps. -/
theorem foldlM_keeps {step : β → α → Except ε β} (P : β → Prop) (xs : List α)
    (hstep : ∀ x ∈ xs, ∀ b b', P b → step b x = .ok b' → P b') {b b' : β} (hb : P b)
    (h : xs.foldlM step b = .ok b') : P b' :=
  @foldlM_simulates ε α β Unit step (fun _ _ ↦ ()) (fun b _ ↦ P b) xs
    (fun x hx b b' _ ↦ hstep x hx b b') b b' () hb h

/-- A fold fails only where one of its steps does. -/
theorem exists_of_foldlM_eq_error {step : β → α → Except ε β} {xs : List α} {b : β} {e : ε}
    (h : xs.foldlM step b = .error e) : ∃ x ∈ xs, ∃ b, step b x = .error e := by
  induction xs generalizing b with
  | nil => cases h
  | cons x xs ih =>
    rw [List.foldlM_cons] at h
    rcases bind_eq_error_iff.mp h with hx | ⟨next, -, h⟩
    · exact ⟨x, List.mem_cons_self, b, hx⟩
    · obtain ⟨y, hy, hstep⟩ := ih h
      exact ⟨y, List.mem_cons_of_mem x hy, hstep⟩

/-- A fold whose steps differ from others only in what they call their errors, and in what they take
instead of the members of the list, differs from the other fold only so. -/
theorem foldlM_mapError {δ : Type} (rename : ε → δ) {key : α → γ} {step : β → α → Except ε β}
    {step' : β → γ → Except δ β} (xs : List α)
    (h : ∀ x ∈ xs, ∀ b, step' b (key x) = (step b x).mapError rename) (b : β) :
    (xs.map key).foldlM step' b = (xs.foldlM step b).mapError rename := by
  induction xs generalizing b with
  | nil => rfl
  | cons x xs ih =>
    rw [List.map_cons, List.foldlM_cons, List.foldlM_cons, h x List.mem_cons_self, mapError_bind]
    congr 1
    funext next
    exact ih (fun y hy ↦ h y (List.mem_cons_of_mem x hy)) next

/-- A fold whose steps commute with a translation of the states commutes with it. -/
theorem foldlM_translate {step : β → α → Except ε β} {step' : γ → α → Except ε γ}
    (translate : β → γ) (h : ∀ b x, step' (translate b) x = (step b x).map translate)
    (xs : List α) (b : β) :
    xs.foldlM step' (translate b) = (xs.foldlM step b).map translate := by
  induction xs generalizing b with
  | nil => rfl
  | cons x xs ih =>
    rw [List.foldlM_cons, List.foldlM_cons, h]
    cases step b x with
    | error e => rfl
    | ok next => exact ih next

/-- Checking the members of a list one by one fails as computing with them does, if each check
does. -/
theorem forM_mapError {δ : Type} (rename : ε → δ) {compute : α → Except ε β}
    {check : α → Except δ PUnit}
    (h : ∀ x, check x = ((compute x).map fun _ ↦ ()).mapError rename) (xs : List α) :
    forM xs check = ((xs.mapM compute).map fun _ ↦ ()).mapError rename := by
  induction xs with
  | nil => rfl
  | cons x xs ih =>
    rw [List.forM_cons, List.mapM_cons, h, ih]
    cases compute x with
    | error e => rfl
    | ok y =>
      cases xs.mapM compute with
      | error e => rfl
      | ok ys => rfl

/-- Two computations fail alike, or both succeed and their results are related. -/
inductive Alike (R : α → β → Prop) : Except ε α → Except ε β → Prop where
  | error (e : ε) : Alike R (.error e) (.error e)
  | ok {a : α} {b : β} (h : R a b) : Alike R (.ok a) (.ok b)

/-- What is done alike with related results is alike. -/
theorem Alike.bind {δ : Type} {R : α → β → Prop} {S : γ → δ → Prop} {x : Except ε α}
    {y : Except ε β} {f : α → Except ε γ} {g : β → Except ε δ} (h : Alike R x y)
    (hfg : ∀ a b, R a b → Alike S (f a) (g b)) : Alike S (x >>= f) (y >>= g) := by
  cases h with
  | error e => exact .error e
  | ok hab => exact hfg _ _ hab

/-- Two continuations that are alike are so after any computation. -/
theorem Alike.bind_right {S : β → γ → Prop} (x : Except ε α) {f : α → Except ε β}
    {g : α → Except ε γ} (h : ∀ a, Alike S (f a) (g a)) : Alike S (x >>= f) (x >>= g) := by
  cases x with
  | error e => exact .error e
  | ok a => exact h a

end BlockFlow
