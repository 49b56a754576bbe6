import Gostman.Mock.Table
/-!
# Which route answers

The routes a collection offers are kept apart by their keys, the first of each
key being served.  Among the served routes that match a path no two have the
same rank, so the first after sorting is the most specific one, and it does not
matter in which order the collection holds them.
-/

namespace Gostman.Mock

open Gostman.Lib
open Gostman.Placeholders (Text Substitution Generators Settled filledFirst)

variable {lib : Library} {generators : Generators}

/-! ## What a source offers -/

/-- The route a source is served by when no other has taken its method and
path. -/
def offer (lib : Library) (source : Source) (address : Text) : Option ServedRoute :=
  if (unservedReason lib (methodOf lib source) address).isSome ∨ source.disabled = true ∨
      source.behavior.validate.isSome then none
  else
    (selectExample source.examples source.exampleID).bind fun shown =>
      (answerFrom lib shown).map fun answer =>
        ⟨source.name, methodOf lib source, shapeOf source, some answer, servedExamples lib source.examples,
          source.behavior⟩

def ServedRoute.key (route : ServedRoute) : Bytes :=
  routeKey route.method route.shape

def SameRoute (a b : ServedRoute) : Prop :=
  a.method = b.method ∧ SameShape a.shape b.shape

theorem solid_shapeOf (source : Source) : Solid (shapeOf source) := by
  unfold shapeOf
  split_ifs
  · exact solid_templatePattern _ _
  · exact solid_parsePattern _

theorem offer_shape {source : Source} {address : Text} {route : ServedRoute}
    (h : offer lib source address = some route) : Solid route.shape := by
  unfold offer at h
  split_ifs at h
  obtain ⟨shown, -, hmap⟩ := Option.bind_eq_some_iff.1 h
  obtain ⟨answer, -, rfl⟩ := Option.map_eq_some_iff.1 hmap
  exact solid_shapeOf source

theorem key_eq_iff_sameRoute {a b : ServedRoute} (ha : Solid a.shape) (hb : Solid b.shape) :
    a.key = b.key ↔ SameRoute a b := by
  unfold ServedRoute.key routeKey SameRoute
  constructor
  · intro h
    obtain ⟨hmethod, hkey⟩ := append_space_inj (space_not_mem_key _) (space_not_mem_key _) h
    exact ⟨encode_injective hmethod, (key_eq_iff ha hb).1 hkey⟩
  · rintro ⟨hmethod, hshape⟩
    rw [hmethod, (key_eq_iff ha hb).2 hshape]

/-! ## One source -/

/-- The keys with an owner are those of the served routes. -/
def Table.Owned (t : Table) : Prop :=
  ∀ taken, (t.owners.read taken).isSome ↔ taken ∈ t.served.map ServedRoute.key

/-- What admitting a source does: nothing to the served routes unless it offers
one; then the route is in conflict with one that is served, or is served. -/
theorem admit_cases {t t' : Table} {source : Source} {address : Text} {route : Route}
    (h : t.admit lib source address = .ok (route, t')) :
    t'.routes = t.routes ∧
    (offer lib source address = none ∧ t'.served = t.served ∧ t'.owners = t.owners ∨
      ∃ offered, offer lib source address = some offered ∧
        ((t.owners.read offered.key).isSome ∧ t'.served = t.served ∧ t'.owners = t.owners ∧
            route.state = .conflict ∨
          t.owners.read offered.key = none ∧ t'.served = t.served ++ [offered] ∧
            t'.owners = t.owners.put offered.key source.name)) := by
  unfold Table.admit at h
  dsimp only at h
  cases hreason : unservedReason lib (methodOf lib source) address with
  | some reason =>
      simp only [hreason, Except.ok.injEq, Prod.mk.injEq] at h
      obtain ⟨-, rfl⟩ := h
      exact ⟨rfl, .inl ⟨by simp [offer, hreason], rfl, rfl⟩⟩
  | none =>
      simp only [hreason] at h
      by_cases hdisabled : source.disabled = true
      · simp only [hdisabled, if_true, Except.ok.injEq, Prod.mk.injEq] at h
        obtain ⟨-, rfl⟩ := h
        exact ⟨rfl, .inl ⟨by simp [offer, hdisabled], rfl, rfl⟩⟩
      simp only [hdisabled] at h
      cases hvalid : source.behavior.validate with
      | some invalid => simp [hvalid] at h
      | none =>
          cases hshown : selectExample source.examples source.exampleID with
          | none =>
              simp only [hvalid, hshown, Except.ok.injEq, Prod.mk.injEq, Bool.false_eq_true, if_false] at h
              obtain ⟨-, rfl⟩ := h
              exact ⟨rfl, .inl ⟨by simp [offer, hshown], rfl, rfl⟩⟩
          | some shown =>
              cases hanswer : answerFrom lib shown with
              | none =>
                  simp only [hvalid, hshown, hanswer, Except.ok.injEq, Prod.mk.injEq, Bool.false_eq_true, if_false] at h
                  obtain ⟨-, rfl⟩ := h
                  exact ⟨rfl, .inl ⟨by simp [offer, hshown, hanswer], rfl, rfl⟩⟩
              | some answer =>
                  simp only [hvalid, hshown, hanswer, Bool.false_eq_true, if_false] at h
                  have hoffer : offer lib source address = some ⟨source.name, methodOf lib source, shapeOf source,
                      some answer, servedExamples lib source.examples, source.behavior⟩ := by
                    simp [offer, hreason, hdisabled, hvalid, hshown, hanswer]
                  split at h
                  · next owner howner =>
                      simp only [Except.ok.injEq, Prod.mk.injEq] at h
                      obtain ⟨rfl, rfl⟩ := h
                      exact ⟨rfl, .inr ⟨_, hoffer, .inl ⟨Option.isSome_iff_exists.2 ⟨owner, howner⟩, rfl, rfl, rfl⟩⟩⟩
                  · next howner =>
                      simp only [Except.ok.injEq, Prod.mk.injEq] at h
                      obtain ⟨rfl, rfl⟩ := h
                      exact ⟨rfl, .inr ⟨_, hoffer, .inr ⟨howner, rfl, rfl⟩⟩⟩

/-! ## The first of each key -/

/-- Those that are served when these are taken already and more are offered. -/
def claimed (taken : List ServedRoute) : List ServedRoute → List ServedRoute
  | [] => taken
  | route :: rest =>
      if route.key ∈ taken.map ServedRoute.key then claimed taken rest else claimed (taken ++ [route]) rest

theorem mem_claimed_of_mem {taken offers : List ServedRoute} {route : ServedRoute} (h : route ∈ taken) :
    route ∈ claimed taken offers := by
  induction offers generalizing taken with
  | nil => exact h
  | cons first rest ih =>
      unfold claimed
      split_ifs
      · exact ih h
      · exact ih (List.mem_append_left _ h)

theorem nodup_claimed {taken : List ServedRoute} (h : (taken.map ServedRoute.key).Nodup)
    (offers : List ServedRoute) : ((claimed taken offers).map ServedRoute.key).Nodup := by
  induction offers generalizing taken with
  | nil => exact h
  | cons first rest ih =>
      unfold claimed
      split_ifs with htaken
      · exact ih h
      · apply ih
        rw [List.map_append, List.map_singleton, List.nodup_append_comm, List.singleton_append]
        exact List.nodup_cons.2 ⟨htaken, h⟩

/-- Nothing is left out where no key is repeated. -/
theorem claimed_of_nodup {taken offers : List ServedRoute}
    (h : ((taken ++ offers).map ServedRoute.key).Nodup) : claimed taken offers = taken ++ offers := by
  induction offers generalizing taken with
  | nil => simp [claimed]
  | cons first rest ih =>
      have hfresh : first.key ∉ taken.map ServedRoute.key := by
        intro hmem
        rw [List.map_append, List.map_cons] at h
        exact List.disjoint_of_nodup_append h hmem List.mem_cons_self
      rw [claimed, if_neg hfresh, ih (by simpa using h), List.append_assoc, List.singleton_append]

theorem exists_claimed {taken offers : List ServedRoute} {route : ServedRoute} (h : route ∈ offers) :
    ∃ served ∈ claimed taken offers, served.key = route.key := by
  induction offers generalizing taken with
  | nil => cases h
  | cons first rest ih =>
      unfold claimed
      rcases List.mem_cons.1 h with rfl | hmem
      · split_ifs with htaken
        · obtain ⟨owner, howner, hkey⟩ := List.mem_map.1 htaken
          exact ⟨owner, mem_claimed_of_mem howner, hkey⟩
        · exact ⟨route, mem_claimed_of_mem (List.mem_append_right _ List.mem_cons_self), rfl⟩
      · split_ifs
        · exact ih hmem
        · exact ih hmem

/-- What is served was taken before, or is the first of its key. -/
theorem first_of_claimed {taken offers : List ServedRoute} {route : ServedRoute}
    (h : route ∈ claimed taken offers) :
    route ∈ taken ∨ ∃ before after, offers = before ++ route :: after ∧
      route.key ∉ taken.map ServedRoute.key ∧ ∀ other ∈ before, other.key ≠ route.key := by
  induction offers generalizing taken with
  | nil => exact .inl h
  | cons first rest ih =>
      unfold claimed at h
      split_ifs at h with htaken
      · rcases ih h with hin | ⟨before, after, rfl, hfresh, hfirst⟩
        · exact .inl hin
        · refine .inr ⟨first :: before, after, rfl, hfresh, ?_⟩
          intro other hmem heq
          rcases List.mem_cons.1 hmem with rfl | hbefore
          · exact hfresh (heq ▸ htaken)
          · exact hfirst other hbefore heq
      · rcases ih h with hin | ⟨before, after, rfl, hfresh, hfirst⟩
        · rcases List.mem_append.1 hin with hold | hnew
          · exact .inl hold
          · rw [List.mem_singleton.1 hnew]
            exact .inr ⟨[], rest, rfl, htaken, by simp⟩
        · rw [List.map_append, List.mem_append, not_or] at hfresh
          refine .inr ⟨first :: before, after, rfl, hfresh.1, ?_⟩
          intro other hmem heq
          rcases List.mem_cons.1 hmem with rfl | hbefore
          · exact hfresh.2 (by simp [heq])
          · exact hfirst other hbefore heq

/-! ## The whole collection -/

/-- What the sources offer, each address filled as if it were the first. -/
def offers (lib : Library) (generators : Generators) (values : Text → Option Text) (sources : List Source) :
    List ServedRoute :=
  sources.filterMap fun source => offer lib source (filledFirst generators values source.url)

variable {values : Text → Option Text}

theorem offers_cons (source : Source) (rest : List Source) :
    offers lib generators values (source :: rest) =
      (offer lib source (filledFirst generators values source.url)).toList ++ offers lib generators values rest := by
  unfold offers
  rw [List.filterMap_cons]
  cases offer lib source (filledFirst generators values source.url) <;> rfl

theorem admitAll_cons (source : Source) (rest : List Source) (t : Table) (s : Substitution) :
    admitAll lib generators (source :: rest) t s =
      match t.admit lib source (s.apply generators source.url).1 with
      | .error invalid => .error (.source source.name invalid)
      | .ok (route, t) =>
          admitAll lib generators rest { t with routes := t.routes ++ [route] } (s.apply generators source.url).2 := by
  rfl

theorem broken_admitAll {sources : List Source} {t t' : Table} {s s' : Substitution}
    (h : admitAll lib generators sources t s = .ok (t', s')) (hbroken : s.Broken) : s'.Broken := by
  induction sources generalizing t s with
  | nil =>
      simp only [admitAll, Except.ok.injEq, Prod.mk.injEq] at h
      exact h.2 ▸ hbroken
  | cons source rest ih =>
      rw [admitAll_cons] at h
      split at h
      · cases h
      · exact ih h (Placeholders.broken_apply hbroken _)

/-- After a step the owners are still those of the served routes. -/
theorem owned_put {t : Table} (h : t.Owned) (route : ServedRoute) (name : Text) (t' : Table)
    (hserved : t'.served = t.served ++ [route]) (howners : t'.owners = t.owners.put route.key name) : t'.Owned := by
  intro taken
  rw [howners, hserved, Record.read_put, List.map_append, List.mem_append, ← h taken]
  by_cases heq : taken = route.key
  · simp [heq]
  · simp [heq]

theorem admitAll_spec {sources : List Source} {t t' : Table} {s s' : Substitution}
    (h : admitAll lib generators sources t s = .ok (t', s')) (hsettled : Settled generators values s)
    (hsound : ¬s'.Broken) (howned : t.Owned) :
    t'.served = claimed t.served (offers lib generators values sources) ∧ t.routes <+: t'.routes ∧
      ((∀ route ∈ t'.routes, route.state ≠ .conflict) →
        t'.served = t.served ++ offers lib generators values sources) := by
  induction sources generalizing t s with
  | nil =>
      simp only [admitAll, Except.ok.injEq, Prod.mk.injEq] at h
      obtain ⟨rfl, rfl⟩ := h
      exact ⟨rfl, List.prefix_rfl, fun _ => by simp [offers]⟩
  | cons source rest ih =>
      rw [admitAll_cons] at h
      split at h
      · cases h
      · next route next hadmits =>
          have hkept : ¬(s.apply generators source.url).2.Broken := fun hbroken => hsound (broken_admitAll h hbroken)
          obtain ⟨haddress, hnext⟩ := Placeholders.apply_settled hsettled hkept
          rw [haddress] at hadmits
          have hstarts : t.routes <+: next.routes ++ [route] := by
            rw [(admit_cases hadmits).1]
            exact List.prefix_append _ _
          rcases (admit_cases hadmits).2 with ⟨hoffer, hserved, howners⟩ |
              ⟨offered, hoffer, ⟨htaken, hserved, howners, hstate⟩ | ⟨hfree, hserved, howners⟩⟩
          · obtain ⟨hclaimed, hmore, hfresh⟩ := ih h hnext (by
              intro taken
              dsimp only
              rw [howners, hserved]
              exact howned taken)
            rw [offers_cons, hoffer, Option.toList_none, List.nil_append, ← hserved]
            exact ⟨hclaimed, hstarts.trans hmore, hfresh⟩
          · obtain ⟨hclaimed, hmore, hfresh⟩ := ih h hnext (by
              intro taken
              dsimp only
              rw [howners, hserved]
              exact howned taken)
            rw [offers_cons, hoffer, Option.toList_some, List.singleton_append, claimed, if_pos ((howned offered.key).1 htaken), ← hserved]
            refine ⟨hclaimed, hstarts.trans hmore, fun hquiet => ?_⟩
            exact absurd hstate (hquiet route (hmore.subset (List.mem_append_right _ List.mem_cons_self)))
          · obtain ⟨hclaimed, hmore, hfresh⟩ := ih h hnext (owned_put howned offered source.name _ hserved howners)
            have hnew : offered.key ∉ t.served.map ServedRoute.key := by
              rw [← howned, hfree]
              exact Bool.false_ne_true
            rw [offers_cons, hoffer, Option.toList_some, List.singleton_append, claimed, if_neg hnew, ← hserved]
            refine ⟨hclaimed, hstarts.trans hmore, fun hquiet => ?_⟩
            rw [hfresh hquiet, hserved, List.append_assoc, List.singleton_append]

theorem sound_of_no_failure {s : Substitution} (h : expansionFailure s = none) : ¬s.Broken := by
  rw [Placeholders.not_broken_iff]
  unfold expansionFailure at h
  split_ifs at h
  simp_all

/-- A table that is built serves the first offer of each key. -/
theorem buildTable_spec {config : Config} {given : Except String (Text → Option Text)} {sources : List Source}
    {t : Table} (h : buildTable lib generators config given sources = .ok t) :
    ∃ values, given = .ok values ∧
      t.served = byRank (claimed [] (offers lib generators values (config.compose sources))) ∧
      ((∀ route ∈ t.routes, route.state ≠ .conflict) →
        ((offers lib generators values (config.compose sources)).map ServedRoute.key).Nodup) := by
  unfold buildTable at h
  split at h
  · cases h
  dsimp only at h
  split_ifs at h
  cases given with
  | error message => cases h
  | ok values =>
      dsimp only at h
      split at h
      · cases h
      split at h
      · cases h
      · next t' s hadmits =>
          split at h
          · cases h
          · next hfailure =>
              cases h
              have hsound := sound_of_no_failure hfailure
              have howned : ({} : Table).Owned := by
                intro taken
                simp
              obtain ⟨hserved, -, hfresh⟩ := admitAll_spec hadmits (Placeholders.settled_newExpansion values) hsound howned
              refine ⟨values, rfl, by rw [hserved], fun hquiet => ?_⟩
              have hall := (hfresh hquiet).symm.trans hserved
              rw [List.nil_append] at hall
              rw [hall]
              exact nodup_claimed (show (([] : List ServedRoute).map ServedRoute.key).Nodup from List.nodup_nil) _

/-! ## The best match -/

def Suits (lib : Library) (method : Text) (parts : List Bytes) (route : ServedRoute) : Bool :=
  decide (route.method = method) && (matchParts lib route.shape parts).isSome

theorem matchRoute_eq (method : Text) (parts : List Bytes) (routes : List ServedRoute) :
    matchRoute lib method parts routes =
      (routes.filter (Suits lib method parts)).head?.bind fun route =>
        (matchParts lib route.shape parts).map fun params => (route, params) := by
  induction routes with
  | nil => rfl
  | cons route rest ih =>
      unfold matchRoute
      by_cases hmethod : route.method = method
      · rw [if_neg (not_not.2 hmethod)]
        cases hmatch : matchParts lib route.shape parts with
        | none =>
            rw [List.filter_cons_of_neg (by simp [Suits, hmatch])]
            exact ih
        | some params =>
            rw [List.filter_cons_of_pos (by simp [Suits, hmethod, hmatch])]
            simp [hmatch]
      · rw [if_pos hmethod, List.filter_cons_of_neg (by simp [Suits, hmethod])]
        exact ih

theorem pairwise_byRank (served : List ServedRoute) :
    (byRank served).Pairwise fun a b => rank a.shape ≤ rank b.shape := by
  have htotal : Std.Total fun a b : ServedRoute => rank a.shape ≤ rank b.shape := ⟨fun _ _ => le_total _ _⟩
  have htrans : IsTrans ServedRoute fun a b => rank a.shape ≤ rank b.shape := ⟨fun _ _ _ => le_trans⟩
  exact List.pairwise_insertionSort _ served

/-- Two suitable routes with different keys have different ranks. -/
theorem eq_of_rank {routes : List ServedRoute} (hsolid : ∀ route ∈ routes, Solid route.shape)
    (hnodup : (routes.map ServedRoute.key).Nodup) {method : Text} {parts : List Bytes} {a b : ServedRoute}
    (ha : a ∈ routes) (hb : b ∈ routes) (hsuita : Suits lib method parts a = true)
    (hsuitb : Suits lib method parts b = true) (hrank : rank a.shape = rank b.shape) : a = b := by
  simp only [Suits, Bool.and_eq_true, decide_eq_true_eq, Option.isSome_iff_exists] at hsuita hsuitb
  obtain ⟨hmethoda, paramsa, hmatcha⟩ := hsuita
  obtain ⟨hmethodb, paramsb, hmatchb⟩ := hsuitb
  have hshape := sameShape_of_rank (accepts_of_matchParts hmatcha) (accepts_of_matchParts hmatchb) hrank
  have hkey := (key_eq_iff_sameRoute (hsolid a ha) (hsolid b hb)).2 ⟨hmethoda.trans hmethodb.symm, hshape⟩
  exact List.inj_on_of_nodup_map hnodup ha hb hkey

/-- The order in which routes of different keys are listed does not matter. -/
theorem matchRoute_perm {routes others : List ServedRoute} (hperm : routes.Perm others)
    (hsolid : ∀ route ∈ routes, Solid route.shape) (hnodup : (routes.map ServedRoute.key).Nodup)
    (method : Text) (parts : List Bytes) :
    matchRoute lib method parts (byRank routes) = matchRoute lib method parts (byRank others) := by
  have hsorted : (byRank routes).Perm (byRank others) :=
    (List.perm_insertionSort _ routes).trans (hperm.trans (List.perm_insertionSort _ others).symm)
  have hsuitable : (byRank routes).filter (Suits lib method parts) = (byRank others).filter (Suits lib method parts) := by
    apply List.Perm.eq_of_pairwise _ ((pairwise_byRank routes).filter _) ((pairwise_byRank others).filter _)
      (hsorted.filter _)
    intro a b ha hb hab hba
    have hmema : a ∈ routes := (List.perm_insertionSort _ routes).mem_iff.1 (List.mem_filter.1 ha).1
    have hmemb : b ∈ routes :=
      (List.perm_insertionSort _ routes).mem_iff.1 (hsorted.mem_iff.2 (List.mem_filter.1 hb).1)
    exact eq_of_rank hsolid hnodup hmema hmemb (List.mem_filter.1 ha).2 (List.mem_filter.1 hb).2 (le_antisymm hab hba)
  rw [matchRoute_eq, matchRoute_eq, hsuitable]

/-- Where two patterns first differ in being literal, the first one is. -/
def MoreSpecific (p q : Pattern) : Prop :=
  ∃ i : Nat, (∀ j < i, p[j]?.map Segment.wildcard = q[j]?.map Segment.wildcard) ∧
    p[i]?.map Segment.wildcard = some false ∧ q[i]?.map Segment.wildcard = some true

theorem rank_lt_of_moreSpecific {p q : Pattern} (h : MoreSpecific p q) : rank p < rank q := by
  obtain ⟨i, hsame, hp, hq⟩ := h
  induction i generalizing p q with
  | zero =>
      cases p with
      | nil => simp at hp
      | cons a p =>
          cases q with
          | nil => simp at hq
          | cons b q =>
              simp only [List.getElem?_cons_zero, Option.map_some, Option.some.injEq] at hp hq
              simp only [rank, List.map_cons, hp, hq, Bool.false_eq_true, if_false, if_true]
              exact List.Lex.rel (by decide)
  | succ i ih =>
      cases p with
      | nil => simp at hp
      | cons a p =>
          cases q with
          | nil => simp at hq
          | cons b q =>
              have hhead := hsame 0 (Nat.succ_pos i)
              simp only [List.getElem?_cons_zero, Option.map_some, Option.some.injEq] at hhead
              have hrest := @ih p q (fun j hj => by simpa using hsame (j + 1) (Nat.succ_lt_succ hj))
                (by simpa using hp) (by simpa using hq)
              simp only [rank, List.map_cons, hhead]
              exact List.Lex.cons hrest

/-- The route found suits, and no other that suits is more specific. -/
theorem matchRoute_best {served : List ServedRoute} {method : Text} {parts : List Bytes} {route : ServedRoute}
    {params : Params} (h : matchRoute lib method parts (byRank served) = some (route, params)) :
    route ∈ byRank served ∧ route.method = method ∧ matchParts lib route.shape parts = some params ∧
      ∀ other ∈ byRank served, other.method = method → (matchParts lib other.shape parts).isSome →
        ¬MoreSpecific other.shape route.shape := by
  rw [matchRoute_eq] at h
  obtain ⟨found, hhead, hmap⟩ := Option.bind_eq_some_iff.1 h
  obtain ⟨matched, hmatch, heq⟩ := Option.map_eq_some_iff.1 hmap
  cases heq
  obtain ⟨rest, hrest⟩ := List.head?_eq_some_iff.1 hhead
  have hmem : route ∈ (byRank served).filter (Suits lib method parts) := hrest ▸ List.mem_cons_self
  have hsuits := (List.mem_filter.1 hmem).2
  simp only [Suits, Bool.and_eq_true, decide_eq_true_eq] at hsuits
  refine ⟨(List.mem_filter.1 hmem).1, hsuits.1, hmatch, ?_⟩
  intro other hother hmethod hmatches hspecific
  have hin : other ∈ route :: rest := by
    rw [← hrest]
    exact List.mem_filter.2 ⟨hother, by simp [Suits, hmethod, hmatches]⟩
  have hlt := rank_lt_of_moreSpecific hspecific
  rcases List.mem_cons.1 hin with rfl | hlater
  · exact lt_irrefl _ hlt
  · have hpairs := (pairwise_byRank served).filter (Suits lib method parts)
    rw [hrest] at hpairs
    exact not_lt_of_ge ((List.pairwise_cons.1 hpairs).1 other hlater) hlt

/-! ## The table as a whole -/

theorem solid_offers {sources : List Source} {route : ServedRoute}
    (h : route ∈ offers lib generators values sources) : Solid route.shape := by
  obtain ⟨source, -, hoffer⟩ := List.mem_filterMap.1 h
  exact offer_shape hoffer

theorem mem_offers_of_claimed {sources : List Source} {route : ServedRoute}
    (h : route ∈ claimed [] (offers lib generators values sources)) :
    route ∈ offers lib generators values sources := by
  rcases first_of_claimed h with hnil | ⟨before, after, heq, -⟩
  · cases hnil
  · rw [heq]
    exact List.mem_append_right _ List.mem_cons_self

theorem find_perm {config : Config} {sources others : List Source} {t t' : Table}
    (hbuilt : buildTable lib generators config (.ok values) sources = .ok t)
    (hquiet : ∀ route ∈ t.routes, route.state ≠ .conflict) (hperm : sources.Perm others)
    (hbuilt' : buildTable lib generators config (.ok values) others = .ok t') (method : Text) (parts : List Bytes) :
    t'.find lib method parts = t.find lib method parts := by
  obtain ⟨_, heq, hserved, hfresh⟩ := buildTable_spec hbuilt
  cases heq
  obtain ⟨_, heq, hserved', -⟩ := buildTable_spec hbuilt'
  cases heq
  have hnodup := hfresh hquiet
  have hcompose : (config.compose sources).Perm (config.compose others) :=
    (hperm.append_right config.spec).map config.apply
  have hoffers : (offers lib generators values (config.compose sources)).Perm
      (offers lib generators values (config.compose others)) :=
    hcompose.filterMap _
  rw [claimed_of_nodup (by simpa using hnodup), List.nil_append] at hserved
  rw [claimed_of_nodup (by simpa using (hoffers.map ServedRoute.key).nodup hnodup), List.nil_append] at hserved'
  rw [Table.find, Table.find, hserved, hserved']
  exact (matchRoute_perm hoffers (fun route hmem => solid_offers hmem) hnodup method parts).symm

/-- A table answers with its most specific route, in whatever order a
collection without conflicts holds the routes; where there are conflicts it
serves the first route of each method and path shape. -/
theorem table_finds_most_specific {config : Config} {given : Except String (Text → Option Text)}
    {sources : List Source} {t : Table} (hbuilt : buildTable lib generators config given sources = .ok t) :
    ((∀ route ∈ t.routes, route.state ≠ .conflict) → ∀ others t', sources.Perm others →
      buildTable lib generators config given others = .ok t' →
      ∀ method parts, t'.find lib method parts = t.find lib method parts) ∧
    (∀ method parts route params, t.find lib method parts = some (route, params) →
      route ∈ t.served ∧ route.method = method ∧ matchParts lib route.shape parts = some params ∧
        ∀ other ∈ t.served, other.method = method → (matchParts lib other.shape parts).isSome →
          ¬MoreSpecific other.shape route.shape) ∧
    ∃ values, given = .ok values ∧
      (∀ route ∈ t.served, ∃ before after,
        offers lib generators values (config.compose sources) = before ++ route :: after ∧
          ∀ other ∈ before, ¬SameRoute other route) ∧
      (∀ route ∈ offers lib generators values (config.compose sources), ∃ served ∈ t.served, SameRoute served route) ∧
      t.served.Pairwise fun a b => ¬SameRoute a b := by
  obtain ⟨values, rfl, hserved, hfresh⟩ := buildTable_spec hbuilt
  have hmem : ∀ route, route ∈ t.served ↔ route ∈ claimed [] (offers lib generators values (config.compose sources)) := by
    intro route
    rw [hserved]
    exact (List.perm_insertionSort _ _).mem_iff
  refine ⟨?_, ?_, values, rfl, ?_, ?_, ?_⟩
  · intro hquiet others t' hperm hbuilt' method parts
    exact find_perm hbuilt hquiet hperm hbuilt' method parts
  · intro method parts route params hfind
    rw [hserved]
    rw [Table.find, hserved] at hfind
    exact matchRoute_best hfind
  · intro route hroute
    rcases first_of_claimed ((hmem route).1 hroute) with hnil | ⟨before, after, heq, -, hfirst⟩
    · cases hnil
    refine ⟨before, after, heq, fun other hother hsame => hfirst other hother ?_⟩
    have hother' : Solid other.shape := solid_offers (heq ▸ List.mem_append_left _ hother)
    have hroute' : Solid route.shape := solid_offers (mem_offers_of_claimed ((hmem route).1 hroute))
    exact (key_eq_iff_sameRoute hother' hroute').2 hsame
  · intro route hroute
    obtain ⟨served, hclaimed, hkey⟩ := @exists_claimed [] _ _ hroute
    have hsolid : Solid served.shape := solid_offers (mem_offers_of_claimed hclaimed)
    exact ⟨served, (hmem served).2 hclaimed, (key_eq_iff_sameRoute hsolid (solid_offers hroute)).1 hkey⟩
  · have hkeys : (t.served.map ServedRoute.key).Nodup := by
      rw [hserved]
      refine ((List.perm_insertionSort _ _).map ServedRoute.key).symm.nodup (nodup_claimed ?_ _)
      exact List.nodup_nil
    refine (List.pairwise_map.1 hkeys).imp_of_mem ?_
    intro a b ha hb hne hsame
    have hsolida : Solid a.shape := solid_offers (mem_offers_of_claimed ((hmem a).1 ha))
    have hsolidb : Solid b.shape := solid_offers (mem_offers_of_claimed ((hmem b).1 hb))
    exact hne ((key_eq_iff_sameRoute hsolida hsolidb).2 hsame)

/-- A library that knows ASCII methods and headers as they are. -/
def plainLibrary : Library where
  toUpper := id
  toLower := id
  canonicalHeaderKey := id
  decodeBase64 _ := none
  parsesFinite _ := false

def noGenerators : Generators where
  dynamicValue _ := none
  dollar h := by cases h

/-- `GET /users/:id` and `GET /users/me`, each with an example. -/
def userById : Source := { name := "user".toList, url := "/users/:id".toList, examples := [{}] }
def currentUser : Source := { name := "me".toList, url := "/users/me".toList, examples := [{}] }

def builtQuietly : Except Failure Table → Bool
  | .ok t => t.routes.all fun route => route.state ≠ .conflict
  | .error _ => false

theorem quiet_of_built {result : Except Failure Table} (h : builtQuietly result = true) :
    ∃ t, result = .ok t ∧ ∀ route ∈ t.routes, route.state ≠ .conflict := by
  cases result with
  | error failure => cases h
  | ok t => exact ⟨t, rfl, by simpa [builtQuietly] using h⟩

theorem users_found_in_any_order :
    ∃ t, buildTable plainLibrary noGenerators {} (.ok fun _ => none) [userById, currentUser] = .ok t ∧
      ∀ t', buildTable plainLibrary noGenerators {} (.ok fun _ => none) [currentUser, userById] = .ok t' →
        ∀ method parts, t'.find plainLibrary method parts = t.find plainLibrary method parts := by
  have hquiet : builtQuietly (buildTable plainLibrary noGenerators {} (.ok fun _ => none)
      [userById, currentUser]) = true := by
    decide +kernel
  obtain ⟨t, hbuilt, hroutes⟩ := quiet_of_built hquiet
  refine ⟨t, hbuilt, fun t' hbuilt' => ?_⟩
  exact (table_finds_most_specific hbuilt).1 hroutes _ t' (List.Perm.swap _ _ _) hbuilt'

/-! ## Where the order does matter

All addresses are expanded by one substitution, which counts the expansions of
the whole collection.  An address that asks for one more than a text may have
is left as it stands, unless the collection has used up all of its own. -/

section Refused

open Gostman.Placeholders

/-- One variable that stands for another, which is empty. -/
def doubled : Text → Option Text := fun name =>
  if name = ['v'] then some (braced ['u']) else if name = ['u'] then some [] else none

def uses (count : Nat) : Text :=
  (List.replicate count (braced ['v'])).flatten

theorem spansOf_uses (count : Nat) : spansOf (uses count) = (List.replicate count ⟨[], ['v']⟩, []) := by
  unfold spansOf uses
  induction count with
  | zero => rfl
  | succ count ih =>
      rw [List.replicate_succ, List.flatten_cons, List.replicate_succ]
      generalize (List.replicate count (braced ['v'])).flatten = rest at ih
      simp [braced, spansFrom, placeholderAt, ih]

def spentAt (budget expansions total : Nat) : Substitution :=
  { newExpansion doubled with budget := budget, expansions := expansions, total := total }

def lookedUp (raw : Text) (slot : Slot) (s : Substitution) : Option Text × Substitution :=
  lookup noGenerators (nested (fun name value s => fill noGenerators 7 ([] ++ [name]) value false maxEncodedBody name s) [])
    true raw slot s

theorem nested_doubled (s : Substitution) (hs : s.values = doubled) :
    resolve (nested (fun name value s => fill noGenerators 7 ([] ++ [name]) value false maxEncodedBody name s) [])
      ['v'] s = match spend s with
        | (true, s) => fill noGenerators 7 [['v']] (braced ['u']) false maxEncodedBody ['v'] s
        | (false, s) => (none, s) := by
  have hvariable : s.variableOf ['v'] = some (['v'], braced ['u']) := by
    unfold Substitution.variableOf
    rw [hs]
    rfl
  unfold resolve
  rw [hvariable]
  unfold nested
  dsimp only
  rw [if_neg (by decide), if_neg (by simp [maxNesting])]
  rfl

theorem spend_spentAt {budget expansions total : Nat} (htotal : total < maxRequestExpansions) :
    spend (spentAt budget expansions total) =
      if expansions ≥ maxExpansions then (false, spentAt budget expansions total)
      else (true, spentAt budget (expansions + 1) (total + 1)) :=
  spend_of_sound rfl htotal rfl

theorem lookedUp_within {budget expansions total : Nat} (slot : Slot) (hexpansions : expansions < maxExpansions)
    (htotal : total < maxRequestExpansions) :
    lookedUp ['v'] slot (spentAt budget expansions total) =
      (some [], spentAt budget (expansions + 1) (total + 1)) := by
  have hresolve := nested_doubled (spentAt budget expansions total) rfl
  rw [spend_spentAt htotal, if_neg (Nat.not_le_of_lt hexpansions)] at hresolve
  have hfilled : fill noGenerators 7 [['v']] (braced ['u']) false maxEncodedBody ['v']
      (spentAt budget (expansions + 1) (total + 1)) = (some [], spentAt budget (expansions + 1) (total + 1)) := rfl
  dsimp only at hresolve
  rw [hfilled] at hresolve
  exact @lookup_of_resolve noGenerators _ true ['v'] slot _ _ _ hresolve

theorem lookedUp_beyond {budget expansions total : Nat} (slot : Slot) (hexpansions : maxExpansions ≤ expansions)
    (htotal : total < maxRequestExpansions) :
    lookedUp ['v'] slot (spentAt budget expansions total) = (none, spentAt budget expansions total) := by
  have hresolve := nested_doubled (spentAt budget expansions total) rfl
  rw [spend_spentAt htotal, if_pos hexpansions] at hresolve
  exact @lookup_of_resolve noGenerators _ true ['v'] slot _ _ _ hresolve

theorem lookedUp_broken {budget expansions total : Nat} (slot : Slot) (htotal : maxRequestExpansions ≤ total) :
    (lookedUp ['v'] slot (spentAt budget expansions total)).2.Broken := by
  have hspend : (spend (spentAt budget expansions total)).1 = false ∧
      (spend (spentAt budget expansions total)).2.Broken := by
    unfold spend
    simp [spentAt, newExpansion, substitutionOf, htotal, Substitution.Broken]
  have hresolve := nested_doubled (spentAt budget expansions total) rfl
  generalize spend (spentAt budget expansions total) = result at hspend hresolve
  obtain ⟨spent, next⟩ := result
  obtain ⟨rfl, hbroken⟩ : spent = false ∧ next.Broken := hspend
  have hlookup : lookedUp ['v'] slot (spentAt budget expansions total) =
      elsewhere noGenerators true ['v'] slot next := @lookup_of_resolve noGenerators _ true ['v'] slot _ _ _ hresolve
  rw [hlookup]
  exact lasting_elsewhere true _ slot next hbroken

theorem fillSpans_uses {budget limit : Nat} (count : Nat) (rest : List Span) (index expansions total : Nat)
    (hexpansions : expansions + count ≤ maxExpansions) (htotal : total + count ≤ maxRequestExpansions) :
    fillSpans lookedUp limit [] [] index (List.replicate count ⟨[], ['v']⟩ ++ rest) []
        (spentAt budget expansions total) =
      fillSpans lookedUp limit [] [] (index + count) rest [] (spentAt budget (expansions + count) (total + count)) := by
  induction count generalizing index expansions total with
  | zero => simp
  | succ count ih =>
      rw [List.replicate_succ, List.cons_append, fillSpans, lookedUp_within _ (by omega) (by omega)]
      dsimp only
      rw [if_neg (by simp [size]), List.nil_append, List.nil_append, ih (index + 1) (expansions + 1) (total + 1) (by omega) (by omega)]
      simp only [Nat.add_assoc, Nat.add_comm 1 count]


/-- One use more than a text may expand is left as it stands. -/
theorem fillSpans_beyond {budget limit expansions total : Nat} (index : Nat) (hlimit : 5 ≤ limit)
    (hexpansions : maxExpansions ≤ expansions) (htotal : total < maxRequestExpansions) :
    fillSpans lookedUp limit [] [] index [⟨[], ['v']⟩] [] (spentAt budget expansions total) =
      (some (braced ['v']), spentAt budget expansions total) := by
  have hsize : size (braced ['v']) = 5 := by decide
  have hmissing : noteMissing (spentAt budget expansions total) ['v'] = spentAt budget expansions total := rfl
  rw [fillSpans, lookedUp_beyond _ hexpansions htotal]
  dsimp only
  rw [show ([] ++ [] ++ Span.placeholder ⟨[], ['v']⟩ : Text) = braced ['v'] from rfl, hsize,
    if_neg (by omega), fillSpans, List.append_nil, hsize, if_neg (by omega)]
  rfl

/-- At the end of what a run may expand, it is one too many for the run. -/
theorem fillSpans_broken {budget limit expansions total : Nat} (index : Nat)
    (htotal : maxRequestExpansions ≤ total) :
    (fillSpans lookedUp limit [] [] index [⟨[], ['v']⟩] [] (spentAt budget expansions total)).2.Broken := by
  have hlookup := @lookedUp_broken budget expansions total ⟨[], index⟩ htotal
  rw [fillSpans]
  generalize lookedUp ['v'] ⟨[], index⟩ (spentAt budget expansions total) = result at hlookup ⊢
  obtain ⟨found, next⟩ := result
  have hlast : ∀ filled s, s.Broken → (fillSpans lookedUp limit [] [] (index + 1) [] filled s).2.Broken := by
    intro filled s hs
    rw [fillSpans]
    split
    · exact .inr (.inl rfl)
    · exact hs
  cases found with
  | some value =>
      dsimp only
      split
      · exact .inr (.inl rfl)
      · exact hlast _ _ hlookup
  | none =>
      dsimp only
      split
      · exact .inr (.inl rfl)
      · exact hlast _ _ (broken_noteMissing.2 hlookup)

/-- What a text comes to when its uses are looked up one by one. -/
theorem apply_spentAt (budget expansions total count : Nat) {found : Option Text} {next : Substitution} :
    fillSpans lookedUp budget [] [] 0 (List.replicate count ⟨[], ['v']⟩) [] (spentAt budget 0 total) = (found, next) →
    (spentAt budget expansions total).apply noGenerators (uses count) =
      (found.getD (uses count), match found with
        | some filled => { next with budget := next.budget - size filled }
        | none => next) := by
  intro h
  have hfill : fill noGenerators maxNesting [] (uses count) true budget [] (spentAt budget 0 total) = (found, next) := by
    rw [show maxNesting = 7 + 1 from rfl, fill, spansOf_uses]
    exact h
  have hstate : ({ spentAt budget expansions total with expansions := 0 } : Substitution) = spentAt budget 0 total := rfl
  have hbudget : (spentAt budget expansions total).budget = budget := rfl
  rw [apply_of_not_exceeded rfl, hstate, hbudget, hfill]
  cases found <;> rfl

theorem apply_uses {budget total : Nat} (expansions count : Nat) (hcount : count ≤ maxExpansions)
    (htotal : total + count ≤ maxRequestExpansions) :
    (spentAt budget expansions total).apply noGenerators (uses count) = ([], spentAt budget count (total + count)) := by
  have hspans := @fillSpans_uses budget budget count [] 0 0 total (by omega) htotal
  rw [List.append_nil, Nat.zero_add, fillSpans, if_neg (by simp [size])] at hspans
  exact apply_spentAt budget expansions total count hspans

theorem fillSpans_uses_succ {budget total : Nat} (htotal : total + maxExpansions ≤ maxRequestExpansions) :
    fillSpans lookedUp budget [] [] 0 (List.replicate (maxExpansions + 1) ⟨[], ['v']⟩) [] (spentAt budget 0 total) =
      fillSpans lookedUp budget [] [] (0 + maxExpansions) [⟨[], ['v']⟩] []
        (spentAt budget (0 + maxExpansions) (total + maxExpansions)) := by
  rw [List.replicate_succ', fillSpans_uses maxExpansions _ 0 0 total (by omega) htotal]

theorem apply_uses_beyond {budget total : Nat} (expansions : Nat) (hbudget : 5 ≤ budget)
    (htotal : total + maxExpansions < maxRequestExpansions) :
    (spentAt budget expansions total).apply noGenerators (uses (maxExpansions + 1)) =
      (braced ['v'], spentAt (budget - 5) (0 + maxExpansions) (total + maxExpansions)) := by
  have hspans := @fillSpans_uses_succ budget total (Nat.le_of_lt htotal)
  rw [fillSpans_beyond _ hbudget (Nat.le_add_left _ _) htotal] at hspans
  exact apply_spentAt budget expansions total _ hspans

theorem apply_uses_broken {budget total : Nat} (expansions : Nat)
    (htotal : total + maxExpansions = maxRequestExpansions) :
    ((spentAt budget expansions total).apply noGenerators (uses (maxExpansions + 1))).2.Broken := by
  have hspans := @fillSpans_uses_succ budget total (Nat.le_of_eq htotal)
  have hbroken := @fillSpans_broken budget budget (0 + maxExpansions) (total + maxExpansions) (0 + maxExpansions)
    (Nat.le_of_eq htotal.symm)
  rw [← hspans] at hbroken
  generalize hresult : fillSpans lookedUp budget [] [] 0 (List.replicate (maxExpansions + 1) ⟨[], ['v']⟩) []
    (spentAt budget 0 total) = result at hbroken
  obtain ⟨found, next⟩ := result
  rw [apply_spentAt budget expansions total _ hresult]
  cases found with
  | some filled => exact hbroken
  | none => exact hbroken

/-- A request whose address asks for one expansion more than a text may have,
and one whose address asks for just as many as it may. -/
def heavy : Source :=
  { name := ['x'], path := ['/', 'x'], url := uses (maxExpansions + 1), examples := [{}] }
def light : Source :=
  { name := ['y'], path := ['/', 'y'], url := uses maxExpansions }

theorem url_heavy : heavy.url = uses (maxExpansions + 1) := by
  unfold heavy
  rfl

theorem url_light : light.url = uses maxExpansions := by
  unfold light
  rfl

theorem admit_light (t : Table) : ∃ route t', t.admit plainLibrary light [] = .ok (route, t') ∧
    route.state = .noExample ∧ t'.routes = t.routes :=
  ⟨_, _, rfl, rfl, rfl⟩

theorem admitAll_light (count : Nat) (rest : List Source) {budget expansions total : Nat} (t : Table)
    (htotal : total + count * maxExpansions ≤ maxRequestExpansions) :
    ∃ t' expansions', admitAll plainLibrary noGenerators (List.replicate count light ++ rest) t
        (spentAt budget expansions total) =
      admitAll plainLibrary noGenerators rest t' (spentAt budget expansions' (total + count * maxExpansions)) ∧
      ∀ route ∈ t'.routes, route ∈ t.routes ∨ route.state = .noExample := by
  induction count generalizing t expansions total with
  | zero => exact ⟨t, expansions, by simp, fun route hmem => .inl hmem⟩
  | succ count ih =>
      rw [Nat.succ_mul] at htotal
      obtain ⟨route, next, hadmits, hstate, hroutes⟩ := admit_light t
      obtain ⟨t', expansions', hrun, hmem⟩ := @ih maxExpansions (total + maxExpansions)
        { next with routes := next.routes ++ [route] } (by omega)
      refine ⟨t', expansions', ?_, ?_⟩
      · rw [List.replicate_succ, List.cons_append, admitAll, url_light,
          apply_uses expansions maxExpansions (Nat.le_refl _) (by omega)]
        dsimp only
        rw [hadmits]
        dsimp only
        rw [hrun, Nat.succ_mul, Nat.add_assoc, Nat.add_comm maxExpansions]
      · intro other hother
        rcases hmem other hother with hin | hnone
        · dsimp only at hin
          rw [hroutes] at hin
          rcases List.mem_append.1 hin with hold | hnew
          · exact .inl hold
          · rw [List.mem_singleton.1 hnew]
            exact .inr hstate
        · exact .inr hnone

theorem admit_heavy : ∃ route t', Table.admit plainLibrary {} heavy (braced ['v']) = .ok (route, t') ∧
    route.state = .served ∧ t'.routes = [] :=
  ⟨_, _, rfl, rfl, rfl⟩

/-- The table can be built from the sources in any order, and finds the same. -/
def OrderFree (lib : Library) (generators : Generators) (config : Config)
    (given : Except String (Text → Option Text)) (sources : List Source) : Prop :=
  ∀ t, buildTable lib generators config given sources = .ok t →
    (∀ route ∈ t.routes, route.state ≠ .conflict) → ∀ others, sources.Perm others →
      ∃ t', buildTable lib generators config given others = .ok t' ∧
        ∀ method parts, t'.find lib method parts = t.find lib method parts

theorem buildTable_plain {sources : List Source} (hsources : ∀ source ∈ sources, source = heavy ∨ source = light)
    (hlength : sources.length ≤ maxRoutes) :
    buildTable plainLibrary noGenerators {} (.ok doubled) sources =
      match admitAll plainLibrary noGenerators sources {} (spentAt maxEncodedBody 0 0) with
      | .error failure => .error failure
      | .ok (t, s) =>
          match expansionFailure s with
          | some failure => .error failure
          | none => .ok { t with served := byRank t.served } := by
  have hcompose : ({} : Config).compose sources = sources := by
    unfold Config.compose
    rw [show ({} : Config).spec = [] from rfl, List.append_nil]
    calc sources.map ({} : Config).apply = sources.map id := by
          apply List.map_congr_left
          intro source hmem
          rcases hsources source hmem with rfl | rfl <;> rfl
      _ = sources := List.map_id sources
  unfold buildTable
  rw [hcompose]
  dsimp only
  rw [if_neg (Nat.not_lt_of_le hlength)]
  rfl

theorem admitAll_heavy {route : Route} {next : Table}
    (hadmits : Table.admit plainLibrary {} heavy (braced ['v']) = .ok (route, next)) (rest : List Source) :
    admitAll plainLibrary noGenerators (heavy :: rest) {} (spentAt maxEncodedBody 0 0) =
      admitAll plainLibrary noGenerators rest { next with routes := next.routes ++ [route] }
        (spentAt (maxEncodedBody - 5) (0 + maxExpansions) (0 + maxExpansions)) := by
  rw [admitAll_cons, url_heavy, apply_uses_beyond 0 (by decide) (by decide), hadmits]

theorem heavy_first_built : ∃ t, buildTable plainLibrary noGenerators {} (.ok doubled)
      (heavy :: List.replicate 9 light) = .ok t ∧ ∀ route ∈ t.routes, route.state ≠ .conflict := by
  obtain ⟨route, next, hadmits, hstate, hroutes⟩ := admit_heavy
  obtain ⟨t, expansions, hrun, hmem⟩ := @admitAll_light 9 [] (maxEncodedBody - 5) (0 + maxExpansions)
    (0 + maxExpansions) { next with routes := next.routes ++ [route] } (by decide)
  rw [List.append_nil, admitAll] at hrun
  have hall := (admitAll_heavy hadmits (List.replicate 9 light)).trans hrun
  refine ⟨{ t with served := byRank t.served }, ?_, ?_⟩
  · rw [buildTable_plain (by
        intro source hmem
        exact (List.mem_cons.1 hmem).imp_right List.eq_of_mem_replicate) (by decide), hall]
    rfl
  · intro other hother
    rcases hmem other hother with hin | hnone
    · dsimp only at hin
      rw [hroutes, List.nil_append, List.mem_singleton] at hin
      rw [hin, hstate]
      decide
    · rw [hnone]
      decide

theorem heavy_last_not_built (t : Table) : buildTable plainLibrary noGenerators {} (.ok doubled)
    (List.replicate 9 light ++ [heavy]) ≠ .ok t := by
  intro hbuilt
  obtain ⟨t', expansions, hrun, -⟩ := @admitAll_light 9 [heavy] maxEncodedBody 0 0 {} (by decide)
  have hbroken := @apply_uses_broken maxEncodedBody (0 + 9 * maxExpansions) expansions (by decide)
  rw [buildTable_plain (by
      intro source hmem
      rcases List.mem_append.1 hmem with hlight | hheavy
      · exact .inr (List.eq_of_mem_replicate hlight)
      · exact .inl (List.mem_singleton.1 hheavy)) (by decide), hrun] at hbuilt
  split at hbuilt
  · cases hbuilt
  · next result s hadmitted =>
      have hs : s.Broken := by
        rw [admitAll_cons, url_heavy] at hadmitted
        split at hadmitted
        · cases hadmitted
        · simp only [admitAll, Except.ok.injEq, Prod.mk.injEq] at hadmitted
          rw [← hadmitted.2]
          exact hbroken
      split at hbuilt
      · cases hbuilt
      · next hfailure => exact sound_of_no_failure hfailure hs

/-- Nine requests that use up their expansions, and one that asks for more: the
table is built when that one comes first, and refused when it comes last. -/
theorem heavy_last_refused :
    ¬OrderFree plainLibrary noGenerators {} (.ok doubled) (heavy :: List.replicate 9 light) := by
  intro hfree
  obtain ⟨t, hbuilt, hquiet⟩ := heavy_first_built
  obtain ⟨t', hbuilt', -⟩ := hfree t hbuilt hquiet (List.replicate 9 light ++ [heavy])
    (List.perm_append_singleton heavy _).symm
  exact heavy_last_not_built t' hbuilt'

end Refused

end Gostman.Mock
