namespace PathExplorer

variable {α β γ ε : Type}

theorem pure_eq_ok_iff {a b : α} : (pure a : Except ε α) = .ok b ↔ b = a := by
  simp [pure, Except.pure, eq_comm]

theorem eq_ok_of_toOption {x : Except ε α} {a : α} (h : x.toOption = some a) : x = .ok a := by
  cases x with
  | error e => cases h
  | ok b =>
    cases h
    rfl

theorem ok_bind (a : α) (f : α → Except ε β) : Except.ok a >>= f = f a := rfl

theorem bind_eq_ok_iff {x : Except ε α} {f : α → Except ε β} {b : β} :
    x >>= f = .ok b ↔ ∃ a, x = .ok a ∧ f a = .ok b := by
  cases x with
  | error e =>
    constructor
    · intro h
      cases h
    · rintro ⟨a, h, -⟩
      cases h
  | ok a =>
    constructor
    · exact fun h => ⟨a, rfl, h⟩
    · rintro ⟨_, h, hb⟩
      cases h
      exact hb

theorem bind_eq_error_iff {x : Except ε α} {f : α → Except ε β} {e : ε} :
    x >>= f = .error e ↔ x = .error e ∨ ∃ a, x = .ok a ∧ f a = .error e := by
  cases x with
  | error d => simp [bind, Except.bind]
  | ok a => simp [ok_bind]

theorem forM_eq_ok_iff {l : List α} {f : α → Except ε Unit} :
    l.forM f = .ok () ↔ ∀ a ∈ l, f a = .ok () := by
  induction l with
  | nil => simp [pure, Except.pure]
  | cons a l ih =>
    change (f a >>= fun _ => l.forM f) = _ ↔ _
    rw [bind_eq_ok_iff, List.forall_mem_cons, ← ih]
    constructor
    · exact fun ⟨_, ha, hl⟩ => ⟨ha, hl⟩
    · exact fun ⟨ha, hl⟩ => ⟨_, ha, hl⟩

theorem exists_of_forM_eq_error {l : List α} {f : α → Except ε Unit} {e : ε}
    (h : l.forM f = .error e) : ∃ a ∈ l, f a = .error e := by
  induction l with
  | nil => cases h
  | cons a l ih =>
    change (f a >>= fun _ => l.forM f) = _ at h
    obtain ha | ⟨_, -, hl⟩ := bind_eq_error_iff.mp h
    · exact ⟨a, List.mem_cons_self .., ha⟩
    · obtain ⟨b, hb, he⟩ := ih hl
      exact ⟨b, List.mem_cons_of_mem _ hb, he⟩

theorem mem_of_mapM_eq_ok {l : List α} {f : α → Except ε β} {bs : List β} (h : l.mapM f = .ok bs)
    {b : β} (hb : b ∈ bs) : ∃ a ∈ l, f a = .ok b := by
  induction l generalizing bs with
  | nil =>
    cases h
    cases hb
  | cons a l ih =>
    rw [List.mapM_cons] at h
    obtain ⟨c, hc, h⟩ := bind_eq_ok_iff.mp h
    obtain ⟨cs, hcs, h⟩ := bind_eq_ok_iff.mp h
    cases h
    obtain rfl | hb := List.mem_cons.mp hb
    · exact ⟨a, List.mem_cons_self .., hc⟩
    · obtain ⟨d, hd, hfd⟩ := ih hcs hb
      exact ⟨d, List.mem_cons_of_mem _ hd, hfd⟩

theorem nodup_of_mapM_eq_ok {l : List α} {f : α → Except ε β} {bs : List β} (hl : l.Nodup)
    (hf : ∀ a b c, f a = .ok c → f b = .ok c → a = b) (h : l.mapM f = .ok bs) : bs.Nodup := by
  induction l generalizing bs with
  | nil =>
    cases h
    exact List.nodup_nil
  | cons a l ih =>
    obtain ⟨ha, hl⟩ := List.nodup_cons.mp hl
    rw [List.mapM_cons] at h
    obtain ⟨c, hc, h⟩ := bind_eq_ok_iff.mp h
    obtain ⟨cs, hcs, h⟩ := bind_eq_ok_iff.mp h
    cases h
    refine List.nodup_cons.mpr ⟨fun hmem => ?_, ih hl hcs⟩
    obtain ⟨b, hb, hfb⟩ := mem_of_mapM_eq_ok hcs hmem
    exact ha (hf a b c hc hfb ▸ hb)

theorem mapM_eq_ok {l : List α} {f : α → Except ε β} (h : ∀ a ∈ l, ∃ b, f a = .ok b) :
    ∃ bs, l.mapM f = .ok bs ∧ ∀ a ∈ l, ∀ b, f a = .ok b → b ∈ bs := by
  induction l with
  | nil => exact ⟨[], rfl, by simp⟩
  | cons a l ih =>
    obtain ⟨⟨b, hb⟩, hl⟩ := List.forall_mem_cons.mp h
    obtain ⟨bs, hbs, hm⟩ := ih hl
    refine ⟨b :: bs, ?_, List.forall_mem_cons.mpr ⟨fun c hc => ?_, fun d hd c hc => ?_⟩⟩
    · rw [List.mapM_cons]
      exact bind_eq_ok_iff.mpr ⟨b, hb, bind_eq_ok_iff.mpr ⟨bs, hbs, rfl⟩⟩
    · rw [hb] at hc
      cases hc
      exact List.mem_cons_self ..
    · exact List.mem_cons_of_mem _ (hm d hd c hc)

theorem bind_congr {x : Except ε α} {f g : α → Except ε β} (h : ∀ a, x = .ok a → f a = g a) :
    x >>= f = x >>= g := by
  cases x with
  | error e => rfl
  | ok a => exact h a rfl

theorem map_bind {x : Except ε α} {f : α → Except ε β} {g : β → γ} :
    (x >>= f).map g = x >>= fun a => (f a).map g := by
  cases x <;> rfl

/-- Going on in two ways gives one result, up to a change, when it does after each success. -/
theorem bind_eq_map_bind {x : Except ε α} {f : α → Except ε γ} {g : α → Except ε β} {h : β → γ}
    (hfg : ∀ a, x = .ok a → f a = (g a).map h) : x >>= f = (x >>= g).map h := by
  rw [map_bind]
  exact bind_congr hfg

theorem map_mapM {l : List α} {f : α → Except ε β} {g : β → γ} :
    (l.mapM f).map (·.map g) = l.mapM fun a => (f a).map g := by
  induction l with
  | nil => rfl
  | cons a l ih =>
    rw [List.mapM_cons, List.mapM_cons, map_bind, ← ih]
    cases f a with
    | error e => rfl
    | ok b => cases l.mapM f <;> rfl

end PathExplorer
