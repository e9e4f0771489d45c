import Mathlib

/-!
# Results of fallible code

Rust's `?` is `bind` in `Except`. These lemmas take a successful run apart one step at a
time, so that proofs about a fallible function never unfold `bind` themselves.
-/

namespace MobileCoin

universe u v

variable {ε : Type u} {α β : Type v}

@[simp] theorem bind_ok_iff {x : Except ε α} {f : α → Except ε β} {r : β} :
    x >>= f = .ok r ↔ ∃ a, x = .ok a ∧ f a = .ok r := by
  cases x <;> simp [bind, Except.bind]

theorem bind_ok {x : Except ε α} {f : α → Except ε β} {r : β} (h : x >>= f = .ok r) :
    ∃ a, x = .ok a ∧ f a = .ok r :=
  bind_ok_iff.mp h

/-- A step of a `do` block fails when its call fails, or when the call succeeds and the rest of
the block fails. -/
theorem bind_error_iff {x : Except ε α} {f : α → Except ε β} {e : ε} :
    x >>= f = .error e ↔ x = .error e ∨ ∃ a, x = .ok a ∧ f a = .error e := by
  cases x <;> simp [bind, Except.bind]

@[simp] theorem ok_bind (a : α) (f : α → Except ε β) : (Except.ok a >>= f) = f a := rfl

@[simp] theorem error_bind (e : ε) (f : α → Except ε β) : (Except.error e >>= f) = .error e := rfl

@[simp] theorem pure_eq_ok (a : α) : (pure a : Except ε α) = .ok a := rfl

@[simp] theorem map_ok (f : α → β) (a : α) : (f <$> (Except.ok a : Except ε α)) = .ok (f a) := rfl

@[simp] theorem throw_bind (e : ε) (f : α → Except ε β) : (throw e >>= f) = throw e := rfl

/-- A step of a `do` block that returns nothing. -/
theorem bind_unit_ok_iff {β : Type} {x : Except ε Unit} {f : Unit → Except ε β} {r : β} :
    x >>= f = .ok r ↔ x = .ok () ∧ f () = .ok r := by
  rw [bind_ok_iff]
  constructor
  · rintro ⟨⟨⟩, done, rest⟩
    exact ⟨done, rest⟩
  · rintro ⟨done, rest⟩
    exact ⟨⟨⟩, done, rest⟩

theorem exists_bind_ok {x : Except ε α} {f : α → Except ε β} (first : ∃ a, x = .ok a)
    (rest : ∀ a, x = .ok a → ∃ r, f a = .ok r) : ∃ r, x >>= f = .ok r := by
  obtain ⟨a, ran⟩ := first
  rw [ran, ok_bind]
  exact rest a ran

/-- A step `let x ← if p then a else b` of a `do` block, whose rest `f` the notation has copied
into both branches. -/
theorem ite_bind_eq {p : Prop} [Decidable p] (a b : Except ε α) (f : α → Except ε β) :
    (if p then a >>= f else b >>= f) = (if p then a else b) >>= f := by
  split <;> rfl

theorem ite_bind_ok {p : Prop} [Decidable p] {a b : Except ε α} {f : α → Except ε β} {r : β}
    (h : (if p then a >>= f else b >>= f) = .ok r) :
    ∃ x, (if p then a else b) = .ok x ∧ f x = .ok r := by
  rw [ite_bind_eq] at h
  exact bind_ok h

@[simp] theorem throw_ne_ok (e : ε) (a : α) : (throw e : Except ε α) ≠ .ok a := nofun

/-- A guard `if p then throw e` in a `do` block, with the rest of the block as `x`. -/
@[simp] theorem ite_throw_eq_ok {p : Prop} [Decidable p] {x : Except ε α} {e : ε} {a : α} :
    (if p then throw e else x) = .ok a ↔ ¬p ∧ x = .ok a := by
  by_cases holds : p <;> simp [holds]

@[simp] theorem ite_else_throw_eq_ok {p : Prop} [Decidable p] {x : Except ε α} {e : ε} {a : α} :
    (if p then x else throw e) = .ok a ↔ p ∧ x = .ok a := by
  by_cases holds : p <;> simp [holds]

/-- A statement `if p then x` of a `do` block, whose rest `f` the notation has copied into both
branches. -/
theorem ite_bind_else_eq_ok {β : Type} {p : Prop} [Decidable p] {x : Except ε Unit}
    {f : Unit → Except ε β} {r : β} :
    (if p then x >>= f else f ()) = .ok r ↔ (p → x = .ok ()) ∧ f () = .ok r := by
  by_cases holds : p
  · rw [if_pos holds, bind_unit_ok_iff]
    simp [holds]
  · simp [holds]

/-- `Option::ok_or`: the value, or the error when there is none. -/
def okOr (o : Option α) (e : ε) : Except ε α :=
  match o with
  | some a => .ok a
  | none => .error e

@[simp] theorem okOr_some (a : α) (e : ε) : okOr (some a) e = .ok a := rfl

@[simp] theorem okOr_eq_ok {o : Option α} {e : ε} {a : α} : okOr o e = .ok a ↔ o = some a := by
  cases o <;> simp [okOr]

@[simp] theorem mapError_ok {ε' : Type u} (f : ε → ε') (a : α) :
    (Except.ok a : Except ε α).mapError f = .ok a := rfl

theorem mapError_eq_ok {ε' : Type u} {f : ε → ε'} {x : Except ε α} {a : α} :
    x.mapError f = .ok a ↔ x = .ok a := by
  cases x <;> simp [Except.mapError]

theorem map_eq_error {f : α → β} {x : Except ε α} {e : ε} : x.map f = .error e ↔ x = .error e := by
  cases x <;> simp [Except.map]

theorem mapError_eq_error {ε' : Type u} {f : ε → ε'} {x : Except ε α} {e' : ε'} :
    x.mapError f = .error e' ↔ ∃ e, x = .error e ∧ f e = e' := by
  cases x <;> simp [Except.mapError]

/-- A loop through `?` succeeds when every iteration does; it then runs the iterations in
order. -/
theorem foldlM_cons_ok {f : β → α → Except ε β} {init r : β} {a : α} {rest : List α} :
    (a :: rest).foldlM f init = .ok r ↔ ∃ mid, f init a = .ok mid ∧ rest.foldlM f mid = .ok r := by
  simp [List.foldlM_cons]

/-- What every successful iteration of a loop through `?` keeps, a successful loop keeps. -/
theorem foldlM_ok_invariant {f : β → α → Except ε β} {motive : β → Prop}
    (step : ∀ b a b', motive b → f b a = .ok b' → motive b') {l : List α} :
    ∀ {init r : β}, motive init → l.foldlM f init = .ok r → motive r := by
  induction l with
  | nil =>
    intro init r holds ok
    rw [List.foldlM_nil, pure_eq_ok, Except.ok.injEq] at ok
    exact ok ▸ holds
  | cons a rest ih =>
    intro init r holds ok
    obtain ⟨mid, first, later⟩ := foldlM_cons_ok.mp ok
    exact ih (step init a mid holds first) later

theorem foldlM_error {f : β → α → Except ε β} {P : ε → Prop}
    (step : ∀ b a e, f b a = .error e → P e) :
    ∀ {l : List α} {init : β} {e : ε}, l.foldlM f init = .error e → P e
  | [], _, _, failed => by cases failed
  | a :: rest, init, e, failed => by
    rw [List.foldlM_cons, bind_error_iff] at failed
    rcases failed with first | ⟨mid, -, later⟩
    · exact step init a e first
    · exact foldlM_error step later

theorem mapM_ok {f : α → Except ε β} {g : α → β} {l : List α} (all : ∀ a ∈ l, f a = .ok (g a)) :
    l.mapM f = .ok (l.map g) := by
  induction l with
  | nil => rfl
  | cons a rest ih =>
    have rest_ok := ih fun b member => all b (List.mem_cons_of_mem a member)
    rw [List.mapM_cons, all a List.mem_cons_self, rest_ok]
    rfl

/-- A map through `?` whose calls return `value` whenever they succeed: a successful run returns
the list of the values. -/
theorem mapM_ok_eq_map {f : α → Except ε β} {value : α → β} {l : List α} {r : List β}
    (sound : ∀ a ∈ l, ∀ b, f a = .ok b → b = value a) (ok : l.mapM f = .ok r) :
    r = l.map value := by
  induction l generalizing r with
  | nil =>
    rw [List.mapM_nil, pure_eq_ok, Except.ok.injEq] at ok
    rw [← ok, List.map_nil]
  | cons a rest ih =>
    rw [List.mapM_cons, bind_ok_iff] at ok
    obtain ⟨b, head, ok⟩ := ok
    rw [bind_ok_iff] at ok
    obtain ⟨bs, tail, same⟩ := ok
    rw [pure_eq_ok, Except.ok.injEq] at same
    rw [← same, List.map_cons, sound a List.mem_cons_self b head,
      ih (fun a' mem => sound a' (List.mem_cons_of_mem a mem)) tail]

theorem mapM_ok_forall₂ {f : α → Except ε β} :
    ∀ {l : List α} {r : List β}, l.mapM f = .ok r → List.Forall₂ (fun a b => f a = .ok b) l r
  | [], r, ok => by
    rw [List.mapM_nil, pure_eq_ok, Except.ok.injEq] at ok
    rw [← ok]
    exact .nil
  | a :: rest, r, ok => by
    rw [List.mapM_cons] at ok
    obtain ⟨b, head, ok⟩ := bind_ok ok
    obtain ⟨bs, tail, same⟩ := bind_ok ok
    rw [pure_eq_ok, Except.ok.injEq] at same
    rw [← same]
    exact .cons head (mapM_ok_forall₂ tail)

theorem mapM_error {f : α → Except ε β} {P : ε → Prop} (call : ∀ a e, f a = .error e → P e) :
    ∀ {l : List α} {e : ε}, l.mapM f = .error e → P e
  | [], _, failed => by cases failed
  | a :: rest, e, failed => by
    rw [List.mapM_cons, bind_error_iff] at failed
    rcases failed with first | ⟨b, -, later⟩
    · exact call a e first
    rcases bind_error_iff.mp later with later | ⟨bs, -, done⟩
    · exact mapM_error call later
    · cases done

theorem mapM_okOr_eq {f : α → Option β} {e : ε} {l : List α} (found : ∀ a ∈ l, (f a).isSome) :
    l.mapM (fun a => okOr (f a) e) = .ok (l.filterMap f) := by
  induction l with
  | nil => rfl
  | cons a rest ih =>
    obtain ⟨b, here⟩ := Option.isSome_iff_exists.mp (found a List.mem_cons_self)
    have later := ih fun a' member => found a' (List.mem_cons_of_mem a member)
    rw [List.mapM_cons, here, okOr_some, ok_bind, later, List.filterMap_cons_some here]
    rfl

theorem forM_ok {f : α → Except ε PUnit} {l : List α} {u : PUnit} (ok : l.forM f = .ok u) :
    ∀ a ∈ l, f a = .ok () := by
  induction l with
  | nil => simp
  | cons a rest ih =>
    rw [List.forM_eq_forM, List.forM_cons, bind_ok_iff] at ok
    obtain ⟨_, head, tail⟩ := ok
    intro a' mem
    rcases List.mem_cons.mp mem with rfl | later
    · exact head
    · exact ih tail a' later

theorem forM_eq_ok_of_forall {f : α → Except ε PUnit} :
    ∀ {l : List α}, (∀ a ∈ l, f a = .ok ()) → l.forM f = .ok ()
  | [], _ => rfl
  | a :: rest, all => by
    rw [List.forM_eq_forM, List.forM_cons, all a List.mem_cons_self, ok_bind, ← List.forM_eq_forM]
    exact forM_eq_ok_of_forall fun b member => all b (List.mem_cons_of_mem a member)

theorem forM_eq_ok_iff {f : α → Except ε PUnit} {l : List α} :
    l.forM f = .ok () ↔ ∀ a ∈ l, f a = .ok () :=
  ⟨forM_ok, forM_eq_ok_of_forall⟩

theorem forM_ne_error {f : α → Except ε PUnit} {e : ε} (never : ∀ a, f a ≠ .error e) :
    ∀ l : List α, l.forM f ≠ .error e
  | [] => nofun
  | a :: rest => by
    intro failed
    rw [List.forM_eq_forM, List.forM_cons] at failed
    cases first : f a with
    | error e' =>
      rw [first, error_bind, Except.error.injEq] at failed
      exact never a (failed ▸ first)
    | ok u =>
      rw [first, ok_bind] at failed
      exact forM_ne_error never rest failed

theorem forM_guard_eq_ok {γ : Type} {l : List γ} {p : γ → Bool} {e : ε} :
    (l.forM fun a => (if p a then throw e else pure () : Except ε Unit)) = .ok () ↔
      ∀ a ∈ l, p a = false := by
  induction l with
  | nil => simp
  | cons a rest ih =>
    rw [List.forM_eq_forM, List.forM_cons, bind_ok_iff, List.forall_mem_cons, ← ih,
      List.forM_eq_forM]
    by_cases tripped : p a <;> simp [tripped]

theorem filterAuxM_ok {γ : Type} {p : γ → Except ε Bool} :
    ∀ {l : List γ}, (∀ a ∈ l, ∃ b, p a = .ok b) → ∀ acc, ∃ kept, l.filterAuxM p acc = .ok kept
  | [], _, acc => ⟨acc, rfl⟩
  | a :: rest, all, acc => by
    obtain ⟨b, tested⟩ := all a List.mem_cons_self
    rw [List.filterAuxM, tested, ok_bind]
    exact filterAuxM_ok (fun c member => all c (List.mem_cons_of_mem a member)) _

theorem filterM_ok {γ : Type} {p : γ → Except ε Bool} {l : List γ}
    (all : ∀ a ∈ l, ∃ b, p a = .ok b) : ∃ kept, l.filterM p = .ok kept := by
  obtain ⟨kept, filtered⟩ := filterAuxM_ok all []
  exact ⟨kept.reverse, by rw [List.filterM, filtered, ok_bind]; rfl⟩

theorem filterM_ne_error {γ : Type} {p : γ → Except ε Bool} {l : List γ} {e : ε}
    (all : ∀ a ∈ l, ∃ b, p a = .ok b) : l.filterM p ≠ .error e := by
  obtain ⟨kept, ok⟩ := filterM_ok all
  rw [ok]
  exact nofun

theorem filterAuxM_error {γ : Type} {p : γ → Except ε Bool} {P : ε → Prop}
    (test : ∀ a e, p a = .error e → P e) :
    ∀ {l : List γ} {acc : List γ} {e : ε}, l.filterAuxM p acc = .error e → P e
  | [], _, _, failed => by cases failed
  | a :: rest, acc, e, failed => by
    rw [List.filterAuxM, bind_error_iff] at failed
    rcases failed with tested | ⟨b, -, later⟩
    · exact test a e tested
    · exact filterAuxM_error test later

theorem filterM_error {γ : Type} {p : γ → Except ε Bool} {P : ε → Prop}
    (test : ∀ a e, p a = .error e → P e) {l : List γ} {e : ε} (failed : l.filterM p = .error e) :
    P e := by
  rw [List.filterM, bind_error_iff] at failed
  rcases failed with filtered | ⟨kept, -, done⟩
  · exact filterAuxM_error test filtered
  · cases done

end MobileCoin
