import DemosOS.Shell.Paths

/-!
# What a path means

A path is resolved component by component from the root: empty components and `.` change
nothing, `..` drops the last name, and anything else is a name.  `normalize_path` works
character by character instead, so a name that ends in a dot is taken for an operator, and
`..` takes back a slash even if an empty component stands before it.

As long as neither has happened, the kept text is a row of components with a slash after each
of them, and its names are those of the input.  `Clean` says that neither happens.
-/

namespace DemosOS.Shell

open Lib Buffer

/-! ## Components -/

/-- The components of a path. -/
def components (text : List UInt8) : List (List UInt8) := text.splitOn SLASH

/-- Components with slashes between them. -/
def joinPath (cs : List (List UInt8)) : List UInt8 := [SLASH].intercalate cs

/-- A component that is an operator. -/
def IsDots (c : List UInt8) : Prop := c = [DOT] ∨ c = [DOT, DOT]

instance (c : List UInt8) : Decidable (IsDots c) := inferInstanceAs (Decidable (_ ∨ _))

/-- The names after one more component. -/
def resolveStep (names : List (List UInt8)) (c : List UInt8) : List (List UInt8) :=
  if c = [] ∨ c = [DOT] then names
  else if c = [DOT, DOT] then names.dropLast
  else names ++ [c]

/-- The names a path leads through, from the root. -/
def resolve (text : List UInt8) : List (List UInt8) := (components text).foldl resolveStep []

/-- The components that are names. -/
def names (cs : List (List UInt8)) : List (List UInt8) := cs.filter (· ≠ [])

section Components

variable {text c : List UInt8} {cs : List (List UInt8)}

theorem joinPath_components (text : List UInt8) : joinPath (components text) = text :=
  List.intercalate_splitOn SLASH

theorem components_joinPath (hne : cs ≠ []) (h : ∀ c ∈ cs, SLASH ∉ c) :
    components (joinPath cs) = cs := List.splitOn_intercalate SLASH h hne

theorem notMem_of_mem_components (h : c ∈ components text) : SLASH ∉ c := by
  induction text generalizing c with
  | nil =>
      rw [components, List.splitOn_nil, List.mem_singleton] at h
      exact h ▸ List.not_mem_nil
  | cons a text ih =>
      have hcons := List.splitOn_cons_eq_if_modifyHead (a := SLASH) a text
      obtain ⟨d, ds, hds⟩ := List.exists_cons_of_ne_nil (List.splitOn_ne_nil SLASH text)
      rw [components, hcons, hds] at h
      rw [components, hds] at ih
      split_ifs at h with ha
      · rcases List.mem_cons.mp h with rfl | h
        · exact List.not_mem_nil
        · exact ih h
      · rcases List.mem_cons.mp h with rfl | h
        · rw [List.mem_cons, not_or]
          exact ⟨fun heq ↦ ha (beq_iff_eq.mpr heq.symm), ih List.mem_cons_self⟩
        · exact ih (List.mem_cons_of_mem d h)

theorem joinPath_cons (c : List UInt8) (hne : cs ≠ []) :
    joinPath (c :: cs) = c ++ SLASH :: joinPath cs := by
  rw [joinPath, List.intercalate_cons_of_ne_nil hne, List.append_assoc, List.singleton_append]
  rfl

theorem joinPath_append {cs' : List (List UInt8)} (hne : cs ≠ []) (hne' : cs' ≠ []) :
    joinPath (cs ++ cs') = joinPath cs ++ SLASH :: joinPath cs' := by
  induction cs with
  | nil => exact absurd rfl hne
  | cons c cs ih =>
      by_cases hcs : cs = []
      · subst hcs
        have hc : joinPath [c] = c := List.intercalate_singleton
        rw [List.singleton_append, joinPath_cons c hne', hc]
      · rw [List.cons_append, joinPath_cons c (by simp [hcs]), joinPath_cons c hcs, ih hcs,
          List.append_assoc, List.cons_append]

/-- Without operators, resolving keeps the names. -/
theorem foldl_resolveStep (h : ∀ c ∈ cs, ¬ IsDots c) (stack : List (List UInt8)) :
    cs.foldl resolveStep stack = stack ++ names cs := by
  induction cs generalizing stack with
  | nil => exact (List.append_nil stack).symm
  | cons c cs ih =>
      have hc := not_or.mp (h c List.mem_cons_self)
      have htail : ∀ c ∈ cs, ¬ IsDots c := fun c hc ↦ h c (List.mem_cons_of_mem _ hc)
      rw [List.foldl_cons, ih htail]
      by_cases hnil : c = []
      · rw [resolveStep, if_pos (.inl hnil), names, names, List.filter_cons_of_neg (by simpa)]
      · rw [resolveStep, if_neg (by simp [hnil, hc.1]), if_neg hc.2, names, names,
          List.filter_cons_of_pos (by simpa), List.append_assoc, List.singleton_append]

end Components

/-! ## The tokens of a component -/

section Tokens

variable {text x c : List UInt8} {a : UInt8}

theorem tokens_keep (hdot : a = DOT → text ≠ [] ∧ text.head? ≠ some SLASH)
    (hdots : a = DOT → text.head? = some DOT → text[1]? ≠ none ∧ text[1]? ≠ some SLASH) :
    tokens (a :: text) = .keep a :: tokens text := by
  rcases tokens_cases (a :: text) (List.cons_ne_nil a text) with ⟨h, -⟩ | ⟨text', h, -⟩ |
    ⟨h, -⟩ | ⟨text', h, -⟩ | ⟨a', text', h, htokens, -⟩
  · obtain ⟨rfl, rfl⟩ := List.cons.inj h
    exact absurd rfl (hdot rfl).1
  · obtain ⟨rfl, rfl⟩ := List.cons.inj h
    exact absurd rfl (hdot rfl).2
  · obtain ⟨rfl, rfl⟩ := List.cons.inj h
    exact absurd rfl (hdots rfl rfl).1
  · obtain ⟨rfl, rfl⟩ := List.cons.inj h
    exact absurd rfl (hdots rfl rfl).2
  · obtain ⟨rfl, rfl⟩ := List.cons.inj h
    exact htokens

/-- Characters other than slashes are kept, unless the last of them is a dot that belongs to
an operator. -/
theorem tokens_append (hx : SLASH ∉ x)
    (hdot : x.getLast? = some DOT → text ≠ [] ∧ text.head? ≠ some SLASH)
    (hdots : x.getLast? = some DOT → text.head? = some DOT →
      text[1]? ≠ none ∧ text[1]? ≠ some SLASH) :
    tokens (x ++ text) = x.map .keep ++ tokens text := by
  induction x with
  | nil => rfl
  | cons a x ih =>
      rw [List.mem_cons, not_or] at hx
      cases x with
      | nil =>
          have hlast (ha : a = DOT) : [a].getLast? = some DOT := congrArg some ha
          exact tokens_keep (fun ha ↦ hdot (hlast ha)) fun ha ↦ hdots (hlast ha)
      | cons b x =>
          rw [List.getLast?_cons_cons] at hdot hdots
          have hb : b ≠ SLASH := fun heq ↦ hx.2 (heq ▸ List.mem_cons_self)
          have hkeep : tokens (a :: (b :: x ++ text)) = .keep a :: tokens (b :: x ++ text) := by
            refine tokens_keep (fun _ ↦ ⟨List.cons_ne_nil _ _, by simpa using hb⟩)
              fun _ hhead ↦ ?_
            cases x with
            | nil =>
                have hlast : [b].getLast? = some DOT := hhead
                have := hdot hlast
                rw [List.cons_append, List.nil_append, List.getElem?_cons_succ,
                  ← List.head?_eq_getElem?]
                exact ⟨fun hnone ↦ this.1 (List.head?_eq_none_iff.mp hnone), this.2⟩
            | cons d x =>
                have hd : d ≠ SLASH := fun heq ↦ hx.2 (by simp [heq])
                exact ⟨Option.some_ne_none d, by simpa using hd⟩
          rw [List.cons_append, hkeep, ih hx.2 hdot hdots]
          rfl

end Tokens

/-! ## Rows of kept components -/

/-- Kept components, with a slash after each. -/
def build (ks : List (List UInt8)) : List UInt8 := (ks.map (· ++ [SLASH])).flatten

/-- The kept components after one more component, if it does not end in a dot or is an
operator. -/
def keepComponent (ks : List (List UInt8)) (c : List UInt8) : Option (List (List UInt8)) :=
  if c = [DOT] then some ks
  else if c = [DOT, DOT] then if ks = [] then none else some ks.dropLast
  else some (ks ++ [c])

/-- Components without slashes that are no operators. -/
def Ordinary (ks : List (List UInt8)) : Prop := ∀ k ∈ ks, SLASH ∉ k ∧ ¬ IsDots k

section Build

variable {ks ks' : List (List UInt8)} {x c k text : List UInt8}

theorem build_concat (ks : List (List UInt8)) (k : List UInt8) :
    build (ks ++ [k]) = build ks ++ (k ++ [SLASH]) := by
  simp [build]

theorem build_append (ks : List (List UInt8)) (c : List UInt8) :
    build ks ++ c = joinPath (ks ++ [c]) := by
  induction ks with
  | nil => exact (List.intercalate_singleton).symm
  | cons k ks ih =>
      rw [List.cons_append, joinPath_cons k (by simp), ← ih]
      simp [build]

theorem rdropWhile_build (ks : List (List UInt8)) (hx : SLASH ∉ x) :
    (build ks ++ x).rdropWhile (· ≠ SLASH) = build ks := by
  induction x using List.reverseRecOn with
  | nil =>
      rw [List.append_nil, List.rdropWhile_eq_self_iff]
      intro hne hlast
      rcases List.eq_nil_or_concat' ks with rfl | ⟨ks, k, rfl⟩
      · exact hne rfl
      · simp [build_concat] at hlast
  | append_singleton x a ih =>
      rw [List.mem_append, not_or] at hx
      have ha : a ≠ SLASH := fun heq ↦ hx.2 (heq ▸ List.mem_singleton_self a)
      rw [← List.append_assoc, List.rdropWhile_concat_pos _ _ _ (by simpa using ha)]
      exact ih hx.1

/-- A `..` takes back the last component and its slash. -/
theorem up_build (ks : List (List UInt8)) (hk : SLASH ∉ k) :
    up (build (ks ++ [k])) = build ks := by
  rw [up, build_concat, ← List.append_assoc, List.dropLast_concat, rdropWhile_build ks hk]

/-- A `..` takes back characters that have no slash after them yet. -/
theorem up_build_append (ks : List (List UInt8)) (hx : SLASH ∉ x) (hne : x ≠ []) :
    up (build ks ++ x) = build ks := by
  rw [up, List.dropLast_append_of_ne_nil hne]
  exact rdropWhile_build ks fun hmem ↦ hx (List.dropLast_subset x hmem)

theorem foldlM_keep (kept x : List UInt8) (l : List Token) :
    (x.map Token.keep ++ l).foldlM act kept = l.foldlM act (kept ++ x) := by
  induction x generalizing kept with
  | nil => rw [List.append_nil]; rfl
  | cons a x ih =>
      rw [List.map_cons, List.cons_append, List.foldlM_cons]
      exact (ih (kept ++ [a])).trans (by rw [List.append_assoc, List.singleton_append])

theorem Ordinary.concat (h : Ordinary ks) (hk : SLASH ∉ k) (hdots : ¬ IsDots k) :
    Ordinary (ks ++ [k]) := by
  intro k' hk'
  rcases List.mem_append.mp hk' with hk' | hk'
  · exact h k' hk'
  · exact List.mem_singleton.mp hk' ▸ ⟨hk, hdots⟩

theorem Ordinary.keepComponent (h : Ordinary ks) (hc : SLASH ∉ c)
    (hkeep : keepComponent ks c = some ks') : Ordinary ks' := by
  unfold Shell.keepComponent at hkeep
  split_ifs at hkeep with hdot hdots hnil
  · exact Option.some.inj hkeep ▸ h
  · exact Option.some.inj hkeep ▸ fun k hk ↦ h k (List.dropLast_subset ks hk)
  · exact Option.some.inj hkeep ▸ h.concat hc (not_or.mpr ⟨hdot, hdots⟩)

/-- Two dots drop the last component, if there is one. -/
theorem act_up (h : Ordinary ks) :
    act (build ks) .up = (keepComponent ks [DOT, DOT]).map build := by
  rcases List.eq_nil_or_concat' ks with rfl | ⟨ks, k, rfl⟩
  · rfl
  · have hne : build (ks ++ [k]) ≠ [] := by simp [build_concat]
    rw [act, if_neg hne, up_build ks (h k (by simp)).1, keepComponent, if_neg (by decide),
      if_pos rfl, if_neg (by simp), List.dropLast_concat]
    rfl

/-- The tokens of a component act on a row of components as `keepComponent` says. -/
theorem foldlM_component (h : Ordinary ks) (hc : SLASH ∉ c)
    (hdots : ¬ IsDots c → c.getLast? ≠ some DOT) (text : List UInt8) :
    (tokens (c ++ SLASH :: text)).foldlM act (build ks) =
      (keepComponent ks c).bind fun ks' ↦ (tokens text).foldlM act (build ks') := by
  by_cases hdot : c = [DOT]
  · subst hdot
    rfl
  by_cases hup : c = [DOT, DOT]
  · subst hup
    have htokens : tokens ([DOT, DOT] ++ SLASH :: text) = .up :: tokens text := rfl
    rw [htokens, List.foldlM_cons, act_up h, Option.bind_eq_bind, Option.bind_map]
    rfl
  · have hlast := hdots (not_or.mpr ⟨hdot, hup⟩)
    rw [tokens_append hc (fun h ↦ absurd h hlast) (fun h ↦ absurd h hlast), foldlM_keep,
      tokens_keep (fun h ↦ absurd h (by decide)) (fun h ↦ absurd h (by decide)),
      List.foldlM_cons, keepComponent, if_neg hdot, if_neg hup, Option.bind_some, build_concat,
      ← List.append_assoc]
    rfl

/-- The same for the last component, which has no slash after it. -/
theorem foldlM_last (h : Ordinary ks) (hc : SLASH ∉ c)
    (hdots : ¬ IsDots c → c.getLast? ≠ some DOT) :
    (tokens c).foldlM act (build ks) =
      if IsDots c then (keepComponent ks c).map build else some (build ks ++ c) := by
  by_cases hdot : c = [DOT]
  · subst hdot
    rfl
  by_cases hup : c = [DOT, DOT]
  · subst hup
    have htokens : tokens [DOT, DOT] = [.up] := rfl
    rw [htokens, List.foldlM_cons, act_up h, if_pos (.inr rfl)]
    exact Option.bind_fun_some _
  · have hnot : ¬ IsDots c := not_or.mpr ⟨hdot, hup⟩
    have hlast := hdots hnot
    have htokens : tokens (c ++ []) = c.map .keep ++ tokens [] :=
      tokens_append hc (fun h ↦ absurd h hlast) fun h ↦ absurd h hlast
    rw [List.append_nil] at htokens
    rw [htokens, foldlM_keep, if_neg hnot]
    rfl

end Build

/-! ## Clean paths -/

/-- What the function gets right about a component, given the components kept so far: a name
does not end in a dot, and a `..` does not find an empty component to take back while a name
is kept. -/
def CleanAt (ks : List (List UInt8)) (c : List UInt8) : Prop :=
  (¬ IsDots c → c.getLast? ≠ some DOT) ∧
    (c = [DOT, DOT] → ks.getLast? = some [] → names ks = [])

instance (ks : List (List UInt8)) (c : List UInt8) : Decidable (CleanAt ks c) :=
  inferInstanceAs (Decidable (_ ∧ _))

/-- The same for each of the components that follow, up to a `..` for which nothing is kept. -/
def Clean : List (List UInt8) → List (List UInt8) → Prop
  | _, [] => True
  | ks, c :: cs => CleanAt ks c ∧
      match keepComponent ks c with
      | some ks => Clean ks cs
      | none => True

instance decidableClean : (ks cs : List (List UInt8)) → Decidable (Clean ks cs)
  | _, [] => isTrue trivial
  | ks, c :: cs =>
      have : Decidable (match keepComponent ks c with
          | some ks => Clean ks cs
          | none => True) :=
        match keepComponent ks c with
        | some ks => decidableClean ks cs
        | none => isTrue trivial
      inferInstanceAs (Decidable (_ ∧ _))

/-- A kept text whose components are no operators, with the names it leads through. -/
def Means (kept : List UInt8) (stack : List (List UInt8)) : Prop :=
  ∃ ks c, kept = build ks ++ c ∧ Ordinary (ks ++ [c]) ∧ names (ks ++ [c]) = stack

section Clean

variable {ks ks' cs stack : List (List UInt8)} {c kept text : List UInt8}

theorem names_concat (ks : List (List UInt8)) (c : List UInt8) :
    names (ks ++ [c]) = if c = [] then names ks else names ks ++ [c] := by
  rw [names, List.filter_append]
  split_ifs with hc
  · rw [hc]
    exact List.append_nil _
  · rw [List.filter_cons_of_pos (by simpa using hc)]
    rfl

/-- On a clean component the names follow the meaning. -/
theorem names_keepComponent (hclean : CleanAt ks c) (h : keepComponent ks c = some ks') :
    names ks' = resolveStep (names ks) c := by
  unfold keepComponent at h
  split_ifs at h with hdot hdots hnil
  · rw [← Option.some.inj h, resolveStep, if_pos (.inr hdot)]
  · rw [← Option.some.inj h, resolveStep, if_neg (by simp [hdots]), if_pos hdots]
    obtain ⟨ks, k, rfl⟩ := (List.eq_nil_or_concat' ks).resolve_left hnil
    rw [List.dropLast_concat, names_concat]
    split_ifs with hk
    · -- the last component is empty, so no name is kept at all
      have hnone := hclean.2 hdots (by rw [List.getLast?_concat, hk])
      rw [names_concat, if_pos hk] at hnone
      rw [hnone]
      rfl
    · rw [List.dropLast_concat]
  · rw [← Option.some.inj h, names_concat, resolveStep]
    by_cases hc : c = []
    · rw [if_pos hc, if_pos (.inl hc)]
    · rw [if_neg hc, if_neg (by simp [hc, hdot]), if_neg hdots]

theorem Means.of_build (h : Ordinary ks) : Means (build ks) (names ks) :=
  ⟨ks, [], (List.append_nil _).symm, h.concat List.not_mem_nil (by decide),
    (names_concat ks []).trans (if_pos rfl)⟩

/-- A clean last component leaves a text with the right names. -/
theorem means_of_last (h : Ordinary ks) (hc : SLASH ∉ c) (hclean : CleanAt ks c)
    (hkept : (tokens c).foldlM act (build ks) = some kept) :
    Means kept (resolveStep (names ks) c) := by
  rw [foldlM_last h hc hclean.1] at hkept
  split_ifs at hkept with hdots
  · obtain ⟨ks', hkeep, rfl⟩ := Option.map_eq_some_iff.mp hkept
    rw [← names_keepComponent hclean hkeep]
    exact .of_build (h.keepComponent hc hkeep)
  · have hkeep : keepComponent ks c = some (ks ++ [c]) := by
      rw [keepComponent, if_neg (not_or.mp hdots).1, if_neg (not_or.mp hdots).2]
    rw [← names_keepComponent hclean hkeep]
    exact ⟨ks, c, (Option.some.inj hkept).symm, h.concat hc hdots, rfl⟩

/-- Clean components leave a text with the right names. -/
theorem means_of_clean (hne : cs ≠ []) (hcs : ∀ c ∈ cs, SLASH ∉ c) (h : Ordinary ks)
    (hclean : Clean ks cs) (hkept : (tokens (joinPath cs)).foldlM act (build ks) = some kept) :
    Means kept (cs.foldl resolveStep (names ks)) := by
  induction cs generalizing ks with
  | nil => exact absurd rfl hne
  | cons c cs ih =>
      have hc := hcs c List.mem_cons_self
      by_cases hlast : cs = []
      · subst hlast
        rw [joinPath, List.intercalate_singleton] at hkept
        exact means_of_last h hc hclean.1 hkept
      · rw [joinPath_cons c hlast, foldlM_component h hc hclean.1.1] at hkept
        obtain ⟨ks', hkeep, hkept⟩ := Option.bind_eq_some_iff.mp hkept
        have hrest := hclean.2
        rw [hkeep] at hrest
        rw [List.foldl_cons, ← names_keepComponent hclean.1 hkeep]
        exact ih hlast (fun c hc ↦ hcs c (List.mem_cons_of_mem _ hc)) (h.keepComponent hc hkeep)
          hrest hkept

/-- A component that is not clean leaves a text with the wrong names. -/
theorem means_of_unclean (h : Ordinary ks) (hc : SLASH ∉ c) (hunclean : ¬ CleanAt ks c) :
    ∃ kept stack, (tokens c).foldlM act (build ks) = some kept ∧ Means kept stack ∧
      stack ≠ resolveStep (names ks) c := by
  rcases not_and_or.mp hunclean with hname | hup
  · obtain ⟨hdots, hlast⟩ := Classical.not_imp.mp hname
    rw [not_not] at hlast
    obtain ⟨hdot, hup⟩ := not_or.mp hdots
    obtain ⟨x, rfl⟩ := List.getLast?_eq_some_iff.mp hlast
    have hx : SLASH ∉ x := fun hmem ↦ hc (List.mem_append_left _ hmem)
    have hresolve : resolveStep (names ks) (x ++ [DOT]) = names ks ++ [x ++ [DOT]] := by
      rw [resolveStep, if_neg (by simp [hdot]), if_neg hup]
    by_cases hdotted : x.getLast? = some DOT
    · -- the name ends in `..`, which takes back what stands before it
      obtain ⟨y, rfl⟩ := List.getLast?_eq_some_iff.mp hdotted
      have hy : SLASH ∉ y := fun hmem ↦ hx (List.mem_append_left _ hmem)
      have hne : y ≠ [] := by
        rintro rfl
        exact hup rfl
      have htokens : tokens (y ++ [DOT, DOT]) = y.map .keep ++ [.up] := by
        rw [tokens_append hy (fun _ ↦ ⟨by simp, by decide⟩) (fun _ _ ↦ ⟨by simp, by decide⟩)]
        rfl
      refine ⟨build ks, names ks, ?_, .of_build h, fun heq ↦ ?_⟩
      · rw [List.append_assoc, List.singleton_append, htokens, foldlM_keep, List.foldlM_cons, act,
          if_neg (by simp [hne]), up_build_append ks hy hne]
        rfl
      · rw [hresolve] at heq
        exact absurd (congrArg List.length heq) (by simp)
    · -- the name ends in a single dot, which is skipped
      have hne : x ≠ [] := by
        rintro rfl
        exact hdot rfl
      have htokens : tokens (x ++ [DOT]) = x.map .keep ++ [.skip] := by
        rw [tokens_append hx (fun h ↦ absurd h hdotted) (fun h ↦ absurd h hdotted)]
        rfl
      have hxdots : ¬ IsDots x := by
        rintro (rfl | rfl)
        · exact hdotted rfl
        · exact hdotted rfl
      refine ⟨build ks ++ x, names (ks ++ [x]), ?_, ⟨ks, x, rfl, h.concat hx hxdots, rfl⟩,
        fun heq ↦ ?_⟩
      · rw [htokens, foldlM_keep]
        rfl
      · rw [hresolve, names_concat, if_neg hne, List.append_cancel_left_eq,
          List.cons.injEq] at heq
        exact absurd (congrArg List.length heq.1) (by simp)
  · -- an empty component is taken back instead of a name
    obtain ⟨hdots, hempty⟩ := Classical.not_imp.mp hup
    obtain ⟨hlast, hnames⟩ := Classical.not_imp.mp hempty
    subst hdots
    obtain ⟨ks, rfl⟩ := List.getLast?_eq_some_iff.mp hlast
    rw [names_concat, if_pos rfl] at hnames
    refine ⟨build ks, names ks, ?_, .of_build fun k hk ↦ h k (List.mem_append_left _ hk),
      fun heq ↦ ?_⟩
    · have htokens : tokens [DOT, DOT] = [.up] := rfl
      have hne : build (ks ++ [[]]) ≠ [] := by simp [build_concat]
      rw [htokens, List.foldlM_cons, act, if_neg hne, up_build ks List.not_mem_nil]
      rfl
    · rw [resolveStep, if_neg (by decide), if_pos rfl, names_concat, if_pos rfl] at heq
      have hlength := congrArg List.length heq
      have hpos := List.length_pos_iff.mpr hnames
      rw [List.length_dropLast] at hlength
      omega

/-- Components that are not all clean have a first one that leaves a wrong text. -/
theorem exists_unclean (hcs : ∀ c ∈ cs, SLASH ∉ c) (h : Ordinary ks) (hunclean : ¬ Clean ks cs) :
    ∃ cs₁ c cs₂, cs = cs₁ ++ c :: cs₂ ∧
      ∃ kept stack, (tokens (joinPath (cs₁ ++ [c]))).foldlM act (build ks) = some kept ∧
        Means kept stack ∧ stack ≠ (cs₁ ++ [c]).foldl resolveStep (names ks) := by
  induction cs generalizing ks with
  | nil => exact absurd trivial hunclean
  | cons c cs ih =>
      have hc := hcs c List.mem_cons_self
      by_cases hat : CleanAt ks c
      · rcases not_and_or.mp hunclean with hnot | hrest
        · exact absurd hat hnot
        cases hkeep : keepComponent ks c with
        | none =>
            rw [hkeep] at hrest
            exact absurd trivial hrest
        | some ks' =>
            rw [hkeep] at hrest
            obtain ⟨cs₁, d, cs₂, rfl, kept, stack, hkept, hmeans, hne⟩ :=
              ih (fun c hc ↦ hcs c (List.mem_cons_of_mem _ hc)) (h.keepComponent hc hkeep) hrest
            refine ⟨c :: cs₁, d, cs₂, rfl, kept, stack, ?_, hmeans, ?_⟩
            · rw [List.cons_append, joinPath_cons c (by simp), foldlM_component h hc hat.1, hkeep]
              exact hkept
            · rwa [List.cons_append, List.foldl_cons, ← names_keepComponent hat hkeep]
      · obtain ⟨kept, stack, hkept, hmeans, hne⟩ := means_of_unclean h hc hat
        refine ⟨[], c, cs, rfl, kept, stack, ?_, hmeans, hne⟩
        rwa [List.nil_append, joinPath, List.intercalate_singleton]

end Clean

/-! ## The meaning of the result -/

/-- The write cursor never goes below zero. -/
def NeverOutside (text : List UInt8) : Prop :=
  ∀ s, Relation.ReflTransGen Cursors.Next (.start (text ++ [0])) s → 0 ≤ s.write

/-- Unless the write cursor goes below zero, `normalize_path` leaves a path without `.` and
`..` that leads through the same names. -/
def KeepsMeaning (text : List UInt8) : Prop :=
  NeverOutside text → ∃ path' result, normalizePath (text ++ [0]) = some path' ∧
    Spells path' result ∧ resolve result = resolve text ∧ ∀ c ∈ components result, ¬ IsDots c

/-- The part of a path up to one of its slashes, or the whole path. -/
def LeadingPart (part text : List UInt8) : Prop :=
  part.head? = some SLASH ∧ (part = text ∨ ∃ rest, text = part ++ SLASH :: rest)

section Meaning

variable {text part kept rest : List UInt8} {stack : List (List UInt8)} {s : Cursors}

/-- The components of a text that is kept are no operators, and its names are as stated. -/
theorem Means.resolve_eq (h : Means kept stack) :
    resolve (if kept = [] then [SLASH] else kept) = stack ∧
      ∀ c ∈ components (if kept = [] then [SLASH] else kept), ¬ IsDots c := by
  obtain ⟨ks, c, rfl, hordinary, rfl⟩ := h
  split_ifs with hnil
  · obtain ⟨hks, rfl⟩ := List.append_eq_nil_iff.mp hnil
    rcases List.eq_nil_or_concat' ks with rfl | ⟨ks, k, rfl⟩
    · decide
    · exact absurd hks (by simp [build_concat])
  · have hcomponents : components (build ks ++ c) = ks ++ [c] := by
      rw [build_append]
      exact components_joinPath (by simp) fun k hk ↦ (hordinary k hk).1
    have hdots : ∀ k ∈ ks ++ [c], ¬ IsDots k := fun k hk ↦ (hordinary k hk).2
    rw [resolve, hcomponents, foldl_resolveStep hdots, List.nil_append]
    exact ⟨rfl, hdots⟩

/-- If the text kept at the end is undefined, the write cursor gets below zero. -/
theorem Scan.falls (h : Scan kept part rest s)
    (hfall : (tokens part).foldlM act kept = none) :
    ∃ s', Relation.ReflTransGen Cursors.Next s s' ∧ s'.write < 0 := by
  induction hlength : part.length using Nat.strong_induction_on generalizing kept part s with
  | h n ih =>
      have hpart : part ≠ [] := by
        rintro rfl
        exact absurd hfall (Option.some_ne_none kept)
      obtain ⟨token, part', s', htokens, hlt, hstep, hacted⟩ := h.round hpart
      have hnext : s.Next s' := by
        obtain ⟨c, part, rfl⟩ := List.exists_cons_of_ne_nil hpart
        exact ⟨c, h.getElem?_read, fun hzero ↦ h.clean_text (hzero ▸ List.mem_cons_self), hstep⟩
      rw [htokens, List.foldlM_cons] at hfall
      unfold Acted at hacted
      cases hact : act kept token with
      | none =>
          rw [hact] at hacted
          exact ⟨s', .single hnext, hacted⟩
      | some kept' =>
          rw [hact] at hacted hfall
          obtain ⟨s'', hrun, hneg⟩ := ih part'.length (hlength ▸ hlt) hacted hfall rfl
          exact ⟨s'', .head hnext hrun, hneg⟩

theorem neverOutside_iff (hclean : 0 ∉ text) : NeverOutside text ↔ (keptText text).isSome := by
  constructor
  · intro h
    by_contra hnone
    obtain ⟨s, hrun, hneg⟩ := (Scan.start hclean []).falls (Option.not_isSome_iff_eq_none.mp hnone)
    exact absurd (h s hrun) (Int.not_le.mpr hneg)
  · intro h s hrun
    obtain ⟨kept, text', hscan, -⟩ := scan_of_run hclean h hrun
    exact hscan.write_eq ▸ Int.natCast_nonneg _

/-- A path keeps its meaning if its components lead to the names of what is kept. -/
theorem keepsMeaning_of_means (hroot : text.head? = some SLASH) (hclean : 0 ∉ text)
    (h : ∀ kept, keptText text = some kept → Means kept (resolve text)) : KeepsMeaning text := by
  intro hinside
  obtain ⟨kept, hkept⟩ := Option.isSome_iff_exists.mp ((neverOutside_iff hclean).mp hinside)
  have hpath := normalizePath_eq (fun hnil ↦ by simp [hnil] at hroot) hclean []
  rw [normalized, hkept, Option.map_some] at hpath
  obtain ⟨path', hpath', hspells, -⟩ := hpath
  obtain ⟨hresolve, hdots⟩ := (h kept hkept).resolve_eq
  exact ⟨path', _, hpath', hspells, hresolve, hdots⟩

/-- A path does not keep its meaning if what is kept leads through other names. -/
theorem not_keepsMeaning (hroot : text.head? = some SLASH) (hclean : 0 ∉ text)
    (hkept : keptText text = some kept) (hmeans : Means kept stack) (hne : stack ≠ resolve text) :
    ¬ KeepsMeaning text := by
  intro h
  obtain ⟨path', result, hpath', hspells, hresolve, -⟩ :=
    h ((neverOutside_iff hclean).mpr (by rw [hkept]; rfl))
  have hpath := normalizePath_eq (fun hnil ↦ by simp [hnil] at hroot) hclean []
  rw [normalized, hkept, Option.map_some] at hpath
  obtain ⟨path'', hpath'', hspells'', -⟩ := hpath
  obtain rfl := Option.some.inj (hpath'.symm.trans hpath'')
  rw [hspells.unique hspells'', hmeans.resolve_eq.1] at hresolve
  exact hne hresolve

/-- The components of a path from the root. -/
theorem exists_components (hroot : text.head? = some SLASH) :
    ∃ cs, cs ≠ [] ∧ components text = [] :: cs ∧ text = SLASH :: joinPath cs ∧
      (∀ c ∈ cs, SLASH ∉ c) ∧ keptText text = (tokens (joinPath cs)).foldlM act (build [[]]) := by
  obtain ⟨text, rfl⟩ := List.head?_eq_some_iff.mp hroot
  have hcomponents : components (SLASH :: text) = [] :: components text :=
    List.splitOn_append_cons_self_of_not_mem List.not_mem_nil text
  have hkeep : tokens (SLASH :: text) = .keep SLASH :: tokens text :=
    tokens_keep (fun h ↦ absurd h (by decide)) fun h ↦ absurd h (by decide)
  refine ⟨components text, List.splitOn_ne_nil _ _, hcomponents, ?_,
    fun c hc ↦ notMem_of_mem_components hc, ?_⟩
  · rw [joinPath_components]
  · rw [joinPath_components, keptText, hkeep]
    rfl

theorem resolve_cons {cs : List (List UInt8)} (h : components text = [] :: cs) :
    resolve text = cs.foldl resolveStep [] := by
  rw [resolve, h]
  rfl

theorem clean_root {cs : List (List UInt8)} : Clean [] ([] :: cs) ↔ Clean [[]] cs :=
  and_iff_right (by decide)

theorem Clean.left {ks cs₁ cs₂ : List (List UInt8)} (h : Clean ks (cs₁ ++ cs₂)) :
    Clean ks cs₁ := by
  induction cs₁ generalizing ks with
  | nil => exact trivial
  | cons c cs₁ ih =>
      refine ⟨h.1, ?_⟩
      have hrest := h.2
      cases hkeep : keepComponent ks c with
      | none => exact trivial
      | some ks' =>
          rw [hkeep] at hrest
          exact ih hrest

theorem LeadingPart.clean (h : LeadingPart part text) (hclean : 0 ∉ text) : 0 ∉ part := by
  rcases h.2 with rfl | ⟨rest, rfl⟩
  · exact hclean
  · exact fun hmem ↦ hclean (List.mem_append_left _ hmem)

theorem ordinary_root : Ordinary [[]] := by
  intro k hk
  rw [List.mem_singleton.mp hk]
  decide

/-- `normalize_path` keeps the meaning of a path and of all its leading parts exactly if the
path is clean. -/
theorem keepsMeaning_iff_clean (text : List UInt8) (hroot : text.head? = some SLASH)
    (hclean : 0 ∉ text) :
    (∀ part, LeadingPart part text → KeepsMeaning part) ↔ Clean [] (components text) := by
  obtain ⟨cs, hne, hcomponents, htext, hcs, -⟩ := exists_components hroot
  constructor
  · intro h
    by_contra hunclean
    rw [hcomponents, clean_root] at hunclean
    obtain ⟨cs₁, c, cs₂, rfl, kept, stack, hkept, hmeans, hwrong⟩ :=
      exists_unclean hcs ordinary_root hunclean
    have hcs' : ∀ d ∈ cs₁ ++ [c], SLASH ∉ d := fun d hd ↦ hcs d (by
      rw [List.append_cons]
      exact List.mem_append_left cs₂ hd)
    have hleading : LeadingPart (SLASH :: joinPath (cs₁ ++ [c])) text := by
      refine ⟨rfl, ?_⟩
      by_cases hlast : cs₂ = []
      · exact .inl (by rw [htext, hlast])
      · refine .inr ⟨joinPath cs₂, ?_⟩
        rw [htext, List.append_cons cs₁, joinPath_append (by simp) hlast, List.cons_append]
    obtain ⟨ds, -, hds, hpart, -, hkeptText⟩ := exists_components hleading.1
    have hpartClean : 0 ∉ SLASH :: joinPath (cs₁ ++ [c]) := hleading.clean hclean
    have hpartComponents : components (SLASH :: joinPath (cs₁ ++ [c])) = [] :: (cs₁ ++ [c]) := by
      rw [← List.nil_append (SLASH :: _), ← joinPath_cons [] (by simp)]
      refine components_joinPath (List.cons_ne_nil _ _) fun d hd ↦ ?_
      rcases List.mem_cons.mp hd with rfl | hd
      · exact List.not_mem_nil
      · exact hcs' d hd
    rw [hds] at hpartComponents
    rw [(List.cons.inj hpartComponents).2] at hkeptText hds
    refine not_keepsMeaning hleading.1 hpartClean (hkeptText.trans hkept) hmeans ?_ (h _ hleading)
    rw [resolve_cons hds]
    exact hwrong
  · intro hclean' part hleading
    obtain ⟨ds, hdsne, hds, -, hdsclean, hkeptText⟩ := exists_components hleading.1
    have hpart : Clean [] (components part) := by
      rcases hleading.2 with rfl | ⟨rest, rfl⟩
      · exact hclean'
      · have hsplit : components (part ++ SLASH :: rest) = components part ++ components rest :=
          List.splitOn_append_cons_self part rest
        rw [hsplit] at hclean'
        exact hclean'.left
    rw [hds, clean_root] at hpart
    refine keepsMeaning_of_means hleading.1 (hleading.clean hclean) fun kept hkept ↦ ?_
    rw [resolve_cons hds]
    exact means_of_clean hdsne hdsclean ordinary_root hpart (hkeptText.symm.trans hkept)

/-- The path `/a./b` is no longer the same: it becomes `/ab`. -/
theorem keepsMeaning_false : ¬ ∀ text : List UInt8, text.head? = some SLASH → 0 ∉ text →
    KeepsMeaning text := by
  intro h
  have hinside : NeverOutside [SLASH, 0x61, DOT, SLASH, 0x62] :=
    (neverOutside_iff (by decide)).mpr (by decide)
  obtain ⟨path', result, hpath', hspells, hresolve, -⟩ :=
    h [SLASH, 0x61, DOT, SLASH, 0x62] rfl (by decide) hinside
  have hrun : normalizePath ([SLASH, 0x61, DOT, SLASH, 0x62] ++ [0]) =
      some ([SLASH, 0x61, 0x62] ++ 0 :: [0x62, 0]) := by decide
  obtain rfl := Option.some.inj (hrun.symm.trans hpath')
  have hresult : Spells ([SLASH, 0x61, 0x62] ++ 0 :: [0x62, 0]) [SLASH, 0x61, 0x62] :=
    ⟨by decide, _, rfl⟩
  rw [hspells.unique hresult] at hresolve
  exact absurd hresolve (by decide)

/-- The path `/a/./b/..`. -/
theorem keepsMeaning_iff_clean_ab :
    KeepsMeaning [SLASH, 0x61, SLASH, DOT, SLASH, 0x62, SLASH, DOT, DOT] :=
  (keepsMeaning_iff_clean [SLASH, 0x61, SLASH, DOT, SLASH, 0x62, SLASH, DOT, DOT] rfl
    (by decide)).mpr (by decide) _ ⟨rfl, .inl rfl⟩

end Meaning

end DemosOS.Shell
