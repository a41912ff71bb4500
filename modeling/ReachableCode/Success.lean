/-!
When a computation that may be given up comes to a result: for each way of putting such computations
together, the results that it has, and where one that follows another gives up. Proofs about them take
a computation apart by these laws.
-/

namespace ReachableCode

variable {ε δ α β : Type}

@[simp] theorem pure_eq_ok {a b : α} : (pure a : Except ε α) = .ok b ↔ a = b := by
  simp [pure, Except.pure]

theorem bind_eq_ok {x : Except ε α} {f : α → Except ε β} {b : β} :
    x >>= f = .ok b ↔ ∃ a, x = .ok a ∧ f a = .ok b := by
  cases x <;> simp [bind, Except.bind]

theorem bind_eq_error {x : Except ε α} {f : α → Except ε β} {e : ε} :
    x >>= f = .error e ↔ x = .error e ∨ ∃ a, x = .ok a ∧ f a = .error e := by
  cases x <;> simp [bind, Except.bind]

/-- What follows a computation matters only for its result. -/
theorem bind_eq_bind {x : Except ε α} {f g : α → Except ε β} (h : ∀ a, x = .ok a → f a = g a) :
    x >>= f = x >>= g := by
  cases x with
  | error => rfl
  | ok a => exact h a rfl

/-- Two computations in turn come to a result if both do. -/
theorem exists_bind_eq_ok {x : Except ε α} {f : α → Except ε β} (hx : ∃ a, x = .ok a)
    (hf : ∀ a, x = .ok a → ∃ b, f a = .ok b) : ∃ b, x >>= f = .ok b := by
  obtain ⟨a, ha⟩ := hx
  obtain ⟨b, hb⟩ := hf a ha
  exact ⟨b, bind_eq_ok.2 ⟨a, ha, hb⟩⟩

theorem map_eq_ok {x : Except ε α} {f : α → β} {b : β} :
    f <$> x = .ok b ↔ ∃ a, x = .ok a ∧ f a = b := by
  cases x <;> simp [Functor.map, Except.map]

/-- A list of computations comes to a result if each of them does. -/
theorem exists_mapM_eq_ok {f : α → Except ε β} {l : List α} (h : ∀ a ∈ l, ∃ b, f a = .ok b) :
    ∃ bs, l.mapM f = .ok bs := by
  induction l with
  | nil => exact ⟨[], rfl⟩
  | cons a rest ih =>
    rw [List.mapM_cons]
    refine exists_bind_eq_ok (h a (by simp)) fun b _ => exists_bind_eq_ok ?_ fun bs _ => ⟨b :: bs, rfl⟩
    exact ih fun a ha => h a (List.mem_cons_of_mem _ ha)

/-- If it is known what each of a list of computations comes to, so is the list of their results. -/
theorem mapM_eq_ok_map {f : α → Except ε β} {k : α → β} {l : List α} (h : ∀ a ∈ l, f a = .ok (k a)) :
    l.mapM f = .ok (l.map k) := by
  induction l with
  | nil => rfl
  | cons a rest ih =>
    obtain ⟨ha, h⟩ := List.forall_mem_cons.1 h
    rw [List.mapM_cons, bind_eq_ok]
    exact ⟨_, ha, bind_eq_ok.2 ⟨_, ih h, rfl⟩⟩

/-- If it is known how each of a list is tested, so are those that pass. -/
theorem filterM_eq_ok_filter {p : α → Except ε Bool} {q : α → Bool} {l : List α} (h : ∀ a ∈ l, p a = .ok (q a)) :
    l.filterM p = .ok (l.filter q) := by
  have aux : ∀ passed, List.filterAuxM p l passed = .ok ((l.filter q).reverse ++ passed) := by
    induction l with
    | nil => exact fun _ => rfl
    | cons a rest ih =>
      intro passed
      obtain ⟨ha, h⟩ := List.forall_mem_cons.1 h
      rw [List.filterAuxM, bind_eq_ok]
      refine ⟨_, ha, ?_⟩
      cases hq : q a <;> simp [ih h, hq]
  rw [List.filterM, bind_eq_ok]
  refine ⟨_, aux [], ?_⟩
  simp

/-- The members of a list with what each of them comes to, if all come to a result. -/
theorem exists_mapM_pairs {holds : α → β → Prop} {f : α → Except ε β} {l : List α}
    (h : ∀ a ∈ l, ∃ b, f a = .ok b ∧ holds a b) :
    ∃ ps : List (α × β), ps.map Prod.fst = l ∧ l.mapM f = .ok (ps.map Prod.snd) ∧ ∀ p ∈ ps, holds p.1 p.2 := by
  induction l with
  | nil => exact ⟨[], rfl, rfl, by simp⟩
  | cons a rest ih =>
    obtain ⟨⟨b, hb, first⟩, h⟩ := List.forall_mem_cons.1 h
    obtain ⟨ps, rfl, hps, all⟩ := ih h
    refine ⟨(a, b) :: ps, rfl, ?_, List.forall_mem_cons.2 ⟨first, all⟩⟩
    rw [List.mapM_cons, bind_eq_ok]
    exact ⟨b, hb, bind_eq_ok.2 ⟨_, hps, rfl⟩⟩

/-- What each of a list of computations comes to stands in the list of their results. -/
theorem forall_mem_of_mapM_eq_ok {holds : β → Prop} {f : α → Except ε β} {l : List α} {bs : List β}
    (each : ∀ a ∈ l, ∀ b, f a = .ok b → holds b) (h : l.mapM f = .ok bs) : ∀ b ∈ bs, holds b := by
  induction l generalizing bs with
  | nil =>
    cases h
    nofun
  | cons a rest ih =>
    rw [List.mapM_cons] at h
    obtain ⟨b, hb, h⟩ := bind_eq_ok.1 h
    obtain ⟨bs', hbs, h⟩ := bind_eq_ok.1 h
    cases h
    exact List.forall_mem_cons.2
      ⟨each a List.mem_cons_self b hb, ih (fun a ha => each a (List.mem_cons_of_mem _ ha)) hbs⟩

/-- The results of a list of computations are just what its members come to. -/
theorem mem_of_mapM_eq_ok {f : α → Except ε β} {l : List α} {bs : List β} (h : l.mapM f = .ok bs) :
    (∀ a ∈ l, ∃ b ∈ bs, f a = .ok b) ∧ ∀ b ∈ bs, ∃ a ∈ l, f a = .ok b := by
  refine ⟨?_, forall_mem_of_mapM_eq_ok (fun a ha _ hb => ⟨a, ha, hb⟩) h⟩
  induction l generalizing bs with
  | nil => nofun
  | cons a rest ih =>
    rw [List.mapM_cons] at h
    obtain ⟨b, hb, h⟩ := bind_eq_ok.1 h
    obtain ⟨bs', hbs, h⟩ := bind_eq_ok.1 h
    cases h
    refine List.forall_mem_cons.2 ⟨⟨b, List.mem_cons_self, hb⟩, fun c hc => ?_⟩
    obtain ⟨e, he, hce⟩ := ih hbs c hc
    exact ⟨e, List.mem_cons_of_mem _ he, hce⟩

theorem elim_eq_ok {o : Option α} {e : ε} {a : α} :
    o.elim (.error e) .ok = (.ok a : Except ε α) ↔ o = some a := by
  cases o <;> simp

/-- A change of the error changes no result. -/
@[simp] theorem mapError_eq_ok {x : Except ε α} {f : ε → δ} {a : α} :
    x.mapError f = .ok a ↔ x = .ok a := by
  cases x with
  | error => exact ⟨nofun, nofun⟩
  | ok => constructor <;> (intro h; cases h; rfl)

theorem mapError_eq_error {x : Except ε α} {f : ε → δ} {d : δ} :
    x.mapError f = .error d ↔ ∃ e, x = .error e ∧ f e = d := by
  cases x with
  | error e => exact ⟨fun h => ⟨e, rfl, Except.error.inj h⟩, fun ⟨_, h, g⟩ => by cases h; exact congrArg _ g⟩
  | ok => exact ⟨nofun, nofun⟩

/-- The computation is given up if `stops` holds, and else comes to a result with the property. -/
def StopsIff (stops : Prop) (post : α → Prop) : Except ε α → Prop
  | .ok a => ¬stops ∧ post a
  | .error _ => stops

namespace StopsIff

variable {S T : Prop} {post : α → Prop} {x : Except ε α}

theorem ok {a : α} (h : post a) : StopsIff False post (.ok a : Except ε α) :=
  ⟨not_false, h⟩

theorem exists_iff (h : StopsIff S post x) : (∃ a, x = .ok a) ↔ ¬S := by
  cases x with
  | ok a => exact iff_of_true ⟨a, rfl⟩ h.1
  | error => exact iff_of_false nofun (not_not_intro h)

theorem mono {post' : α → Prop} (h : StopsIff S post x) (weaker : ∀ a, post a → post' a) :
    StopsIff S post' x := by
  cases x with
  | ok a => exact ⟨h.1, weaker a h.2⟩
  | error => exact h

theorem congr (h : StopsIff S post x) (same : S ↔ T) : StopsIff T post x :=
  propext same ▸ h

theorem bind {f : α → Except ε β} {post' : β → Prop} (hx : StopsIff S post x)
    (hf : ∀ a, post a → StopsIff T post' (f a)) : StopsIff (S ∨ T) post' (x >>= f) := by
  cases x with
  | error => exact Or.inl hx
  | ok a => exact (hf a hx.2).congr (or_iff_right hx.1).symm

/-- What is never given up changes nothing about the computation before it. -/
theorem bind_total {f : α → Except ε β} {post' : β → Prop} (hx : StopsIff S post x)
    (hf : ∀ a, post a → StopsIff False post' (f a)) : StopsIff S post' (x >>= f) :=
  (hx.bind hf).congr (iff_of_eq (or_false S))

/-- A fold is given up at one of its elements; what its steps keep holds of its result. -/
theorem foldlM {f : β → α → Except ε β} {motive : β → Prop} {stops : α → Prop} {l : List α} {b : β}
    (start : motive b) (step : ∀ a ∈ l, ∀ b, motive b → StopsIff (stops a) motive (f b a)) :
    StopsIff (∃ a ∈ l, stops a) motive (l.foldlM f b) := by
  induction l generalizing b with
  | nil => exact (ok start).congr (iff_of_false not_false nofun)
  | cons a rest ih =>
    rw [List.foldlM_cons]
    simp only [List.mem_cons, exists_eq_or_imp]
    refine (step a List.mem_cons_self b start).bind fun b hb => ?_
    exact ih hb fun a ha => step a (List.mem_cons_of_mem _ ha)

/-- A list of computations is given up at one of them; what is known of each result holds of all in order. -/
theorem mapM {γ : Type} {f : α → Except ε β} {g : α → γ} {k : β → γ} {stops : α → Prop} {l : List α}
    (each : ∀ a ∈ l, StopsIff (stops a) (fun b => k b = g a) (f a)) :
    StopsIff (∃ a ∈ l, stops a) (fun bs => bs.map k = l.map g) (l.mapM f) := by
  induction l with
  | nil => exact ⟨nofun, rfl⟩
  | cons a rest ih =>
    rw [List.mapM_cons]
    simp only [List.mem_cons, exists_eq_or_imp]
    refine (each a List.mem_cons_self).bind fun b hb => ?_
    refine (ih fun a ha => each a (List.mem_cons_of_mem _ ha)).bind_total fun bs hbs => ?_
    exact ok (by rw [List.map_cons, List.map_cons, hb, hbs])

end StopsIff

end ReachableCode
