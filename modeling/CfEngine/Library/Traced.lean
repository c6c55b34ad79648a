

-- Programs that act on a state, record events, and may come to an end early. The latest event of a
-- trace comes first.

def Traced (σ ε α : Type) : Type := σ → List ε → Option α × σ × List ε

namespace Traced

variable {σ ε α β : Type} {x : Traced σ ε α} {f : α → Traced σ ε β} {s : σ} {t : List ε}

instance : Monad (Traced σ ε) where
  pure a   := fun s t => (some a, s, t)
  bind x f := fun s t =>
    match x s t with
    | (some a, s, t) => f a s t
    | (none, s, t)   => (none, s, t)

def get : Traced σ ε σ :=
  fun s t => (some s, s, t)

def modify (f : σ → σ) : Traced σ ε Unit :=
  fun s t => (some (), f s, t)

def emit (e : ε) : Traced σ ε Unit :=
  fun s t => (some (), s, e :: t)

-- The end of the program.
def stop : Traced σ ε α :=
  fun s t => (none, s, t)

-- The state and the trace after the program, together with its result if it has not ended.
def Ensures (x : Traced σ ε α) (s : σ) (t : List ε) (Q : Option α → σ → List ε → Prop) : Prop :=
  Q (x s t).1 (x s t).2.1 (x s t).2.2

variable {Q Q' : Option α → σ → List ε → Prop} {R : Option β → σ → List ε → Prop}

@[simp] theorem ensures_pure {a : α} : Ensures (pure a) s t Q ↔ Q (some a) s t := Iff.rfl

@[simp] theorem ensures_get {Q : Option σ → σ → List ε → Prop} :
    Ensures get s t Q ↔ Q (some s) s t := Iff.rfl

@[simp] theorem ensures_modify {g : σ → σ} {Q : Option Unit → σ → List ε → Prop} :
    Ensures (modify g) s t Q ↔ Q (some ()) (g s) t := Iff.rfl

@[simp] theorem ensures_emit {e : ε} {Q : Option Unit → σ → List ε → Prop} :
    Ensures (emit e) s t Q ↔ Q (some ()) s (e :: t) := Iff.rfl

@[simp] theorem ensures_stop : Ensures stop s t Q ↔ Q none s t := Iff.rfl

-- What is to hold after the first program, for the second one to do what it is to do.
def Then (f : α → Traced σ ε β) (R : Option β → σ → List ε → Prop) :
    Option α → σ → List ε → Prop
  | some a, s, t => Ensures (f a) s t R
  | none, s, t   => R none s t

@[simp] theorem then_some {a : α} : Then f R (some a) s t ↔ Ensures (f a) s t R := Iff.rfl

@[simp] theorem ensures_bind : Ensures (x >>= f) s t R ↔ Ensures x s t (Then f R) := by
  simp only [Ensures, bind]
  cases hx : x s t with
  | mk r c => cases r <;> simp [Then, Ensures]

@[simp] theorem ensures_ite {c : Prop} [Decidable c] {y : Traced σ ε α} :
    Ensures (if c then x else y) s t Q ↔ (c → Ensures x s t Q) ∧ (¬c → Ensures y s t Q) := by
  split <;> simp_all

theorem Ensures.imp (h : Ensures x s t Q) (hq : ∀ r s t, Q r s t → Q' r s t) : Ensures x s t Q' :=
  hq _ _ _ h

theorem Ensures.bind (h : Ensures x s t Q) (hs : ∀ a s t, Q (some a) s t → Ensures (f a) s t R)
    (hn : ∀ s t, Q none s t → R none s t) : Ensures (x >>= f) s t R := by
  apply ensures_bind.mpr <| h.imp _
  intro r s t hq
  cases r
  case none   => exact hn s t hq
  case some a => exact hs a s t hq

-- The program does not end early.
def Finishes (x : Traced σ ε α) (s : σ) (t : List ε) (Q : α → σ → List ε → Prop) : Prop :=
  Ensures x s t fun r s t => ∃ a, r = some a ∧ Q a s t

section
variable {P P' : α → σ → List ε → Prop} {R' : β → σ → List ε → Prop}

theorem finishes_pure {a : α} (h : P a s t) : Finishes (pure a) s t P :=
  ⟨a, rfl, h⟩

theorem finishes_get_bind {g : σ → Traced σ ε β} (h : Finishes (g s) s t R') :
    Finishes (get >>= g) s t R' :=
  h

theorem finishes_emit_bind {e : ε} {g : Unit → Traced σ ε β} (h : Finishes (g ()) s (e :: t) R') :
    Finishes (emit e >>= g) s t R' :=
  h

theorem finishes_modify_bind {f : σ → σ} {g : Unit → Traced σ ε β} (h : Finishes (g ()) (f s) t R') :
    Finishes (modify f >>= g) s t R' :=
  h

theorem Finishes.ensures {I : σ → List ε → Prop} (h : Finishes x s t fun _ => I) : Ensures x s t fun _ => I :=
  Ensures.imp h fun _ _ _ ⟨_, _, hi⟩ => hi

theorem Finishes.imp (h : Finishes x s t P) (hp : ∀ a s t, P a s t → P' a s t) : Finishes x s t P' :=
  Ensures.imp h fun _ s t ⟨a, ha, hq⟩ => ⟨a, ha, hp a s t hq⟩

theorem Finishes.bind (h : Finishes x s t P) (hf : ∀ a s t, P a s t → Finishes (f a) s t R') :
    Finishes (x >>= f) s t R' := by
  refine Ensures.bind h ?_ ?_
  · intro a s t ⟨a', ha, hp⟩
    cases ha
    exact hf a s t hp
  · intro s t ⟨_, ha, _⟩
    contradiction

theorem Finishes.ite {c : Prop} [Decidable c] {y : Traced σ ε α} (hx : c → Finishes x s t P)
    (hy : ¬c → Finishes y s t P) : Finishes (if c then x else y) s t P :=
  ensures_ite.mpr ⟨hx, hy⟩

end

-- The program keeps the property `I` of the state and the trace.
def Keeps (I : σ → List ε → Prop) (x : Traced σ ε α) : Prop :=
  ∀ s t, I s t → Ensures x s t fun _ => I

section
variable {I : σ → List ε → Prop} {y : Traced σ ε α}

theorem keeps_pure {a : α} : Keeps I (pure a : Traced σ ε α) :=
  fun _ _ h => h

theorem keeps_get : Keeps I (get : Traced σ ε σ) :=
  fun _ _ h => h

theorem keeps_stop : Keeps I (stop : Traced σ ε α) :=
  fun _ _ h => h

theorem keeps_emit {e : ε} (h : ∀ s t, I s t → I s (e :: t)) : Keeps I (emit e : Traced σ ε Unit) :=
  h

theorem keeps_modify {g : σ → σ} (h : ∀ s t, I s t → I (g s) t) :
    Keeps I (modify g : Traced σ ε Unit) :=
  h

theorem Keeps.bind (hx : Keeps I x) (hf : ∀ a, Keeps I (f a)) : Keeps I (x >>= f) :=
  fun s t h => (hx s t h).bind (fun a s t => hf a s t) fun _ _ => id

theorem Keeps.ite {c : Prop} [Decidable c] (hx : c → Keeps I x) (hy : ¬c → Keeps I y) :
    Keeps I (if c then x else y) :=
  fun s t h => ensures_ite.mpr ⟨fun hc => hx hc s t h, fun hc => hy hc s t h⟩

end

-- Each event of the trace is justified by the ones before it.
def Justified (J : List ε → ε → Prop) : List ε → Prop
  | []     => True
  | e :: t => J t e ∧ Justified J t

section
variable {J P : List ε → ε → Prop} {e : ε} {new : List ε}

-- What justifies new events among themselves also justifies them after a trace, if it does so for each.
theorem Justified.append (h : Justified J t) (hn : Justified P new)
    (hp : ∀ earlier e, Justified P earlier → P earlier e → J (earlier ++ t) e) :
    Justified J (new ++ t) := by
  induction new
  case nil           => exact h
  case cons e new ih => exact ⟨hp new e hn.right hn.left, ih hn.right⟩

theorem Justified.of_append {later : List ε} (h : Justified J (later ++ e :: t)) : J t e := by
  induction later
  case nil              => exact h.left
  case cons e' later ih => exact ih h.right

theorem Justified.exists_of_mem (h : Justified J t) (he : e ∈ t) : ∃ earlier, J earlier e := by
  have ⟨_, t, ht⟩ := List.append_of_mem he
  exact ⟨t, Justified.of_append <| ht ▸ h⟩

theorem justified_of_forall (h : ∀ e ∈ t, ∀ earlier, J earlier e) : Justified J t := by
  induction t
  case nil         => trivial
  case cons e t ih =>
    exact ⟨h e List.mem_cons_self t, ih fun e' he => h e' <| List.mem_cons_of_mem _ he⟩

end
end Traced

-- Programs whose observations are kept beside their state. The latest observation comes first.

namespace Traced

variable {σ ω ε α β : Type}

def observe (new : List ω) : Traced (σ × List ω) ε Unit :=
  modify fun (s, os) => (s, new ++ os)

-- The program as a part of an observed one.
def unobserved (x : Traced σ ε α) : Traced (σ × List ω) ε α :=
  fun (s, os) t => ((x s t).1, ((x s t).2.1, os), (x s t).2.2)

-- The observations that are made by the program.
def observations (y : Traced (σ × List ω) ε α) (s : σ) (t : List ε) : List ω :=
  (y (s, []) t).2.1.2

-- The first program is the second one, apart from its observations.
def Observes (y : Traced (σ × List ω) ε α) (x : Traced σ ε α) : Prop :=
  ∀ s os t, ((y (s, os) t).1, (y (s, os) t).2.1.1, (y (s, os) t).2.2) = x s t

section
variable {x : Traced σ ε α} {y : Traced (σ × List ω) ε α} {f : α → Traced σ ε β}
  {g : α → Traced (σ × List ω) ε β} {s : σ} {os new : List ω} {t : List ε}

@[simp] theorem ensures_observe {Q : Option Unit → σ × List ω → List ε → Prop} :
    Ensures (observe new) (s, os) t Q ↔ Q (some ()) (s, new ++ os) t := Iff.rfl

@[simp] theorem ensures_unobserved {Q : Option α → σ × List ω → List ε → Prop} :
    Ensures (unobserved x) (s, os) t Q ↔ Ensures x s t fun r s t => Q r (s, os) t := Iff.rfl

theorem observes_unobserved : Observes (unobserved x : Traced (σ × List ω) ε α) x :=
  fun _ _ _ => rfl

theorem observes_pure {a : α} : Observes (pure a : Traced (σ × List ω) ε α) (pure a) :=
  fun _ _ _ => rfl

theorem observes_stop : Observes (stop : Traced (σ × List ω) ε α) stop :=
  fun _ _ _ => rfl

theorem Observes.bind (h : Observes y x) (hf : ∀ a, Observes (g a) (f a)) :
    Observes (y >>= g) (x >>= f) := by
  intro s os t
  have hx := h s os t
  simp only [Bind.bind]
  rw [← hx]
  cases hy : y (s, os) t with
  | mk r c =>
    cases r
    case none   => rfl
    case some a => exact hf a c.1.1 c.1.2 c.2

theorem Observes.observe_bind {x : Traced σ ε β} {g : Unit → Traced (σ × List ω) ε β}
    (h : Observes (g ()) x) : Observes (observe new >>= g) x :=
  fun s os t => h s (new ++ os) t

theorem Observes.ite {c : Prop} [Decidable c] {x' : Traced σ ε α} {y' : Traced (σ × List ω) ε α}
    (h : Observes y x) (h' : Observes y' x') :
    Observes (if c then y else y') (if c then x else x') := by
  split
  case isTrue  => exact h
  case isFalse => exact h'

theorem Finishes.observed {P : α → σ → List ε → Prop} {R : Option β → σ × List ω → List ε → Prop}
    (h : Finishes x s t P) (hg : ∀ a s t, P a s t → Ensures (g a) (s, os) t R) :
    Ensures (unobserved x >>= g) (s, os) t R := by
  obtain ⟨a, ha, hp⟩ := h
  apply ensures_bind.mpr
  apply ensures_unobserved.mpr
  show Then g R (x s t).1 _ _
  rw [ha]
  exact hg a _ _ hp

end
end Traced
