import Gostman.Query.Split
/-!
# Keys and values in the URL

Outside of placeholders only safe units are written, so the placeholders stay
where they are, and what was written is decoded to the same text.
-/

namespace Gostman.Query

open Gostman.Lib Gostman.Lib.UriComponent

/-! ## Safe units -/

def Safe (u : UInt16) : Prop :=
  u = percent ∨ ∃ b, unreserved b = true ∧ u = b.toUInt16

theorem not_safe {b : UInt8} (hmark : b.toUInt16 ≠ percent) (h : unreserved b = false) : ¬ Safe b.toUInt16 := by
  intro hsafe
  rcases hsafe with hpercent | ⟨other, hother, heq⟩
  · exact hmark hpercent
  · have hbyte : b = other := by
      apply UInt8.toNat_inj.1
      have hnat := congrArg UInt16.toNat heq
      rw [UInt8.toNat_toUInt16, UInt8.toNat_toUInt16] at hnat
      exact hnat
    rw [hbyte, hother] at h
    cases h

theorem not_safe_leftBrace : ¬ Safe leftBrace := @not_safe 0x7B (by decide) (by decide)

theorem not_safe_rightBrace : ¬ Safe rightBrace := @not_safe 0x7D (by decide) (by decide)

theorem not_safe_plus : ¬ Safe plus := @not_safe 0x2B (by decide) (by decide)

theorem not_safe_fragmentMark : ¬ Safe fragmentMark := @not_safe 0x23 (by decide) (by decide)

theorem not_safe_pairSeparator : ¬ Safe pairSeparator := @not_safe 0x26 (by decide) (by decide)

theorem not_safe_valueSeparator : ¬ Safe valueSeparator := @not_safe 0x3D (by decide) (by decide)

/-! ## One part -/

theorem encodePart_of_wellFormed {part : Text} (h : WellFormed part) :
    encodePart part = ofBytes (Percent.escape unreserved (Lib.encode (scalars part))) := by
  unfold encodePart encodeURIComponent
  rw [if_pos h, Option.getD_some]

theorem safe_of_mem_encodePart {part : Text} (h : WellFormed part) {u : UInt16} (hu : u ∈ encodePart part) : Safe u := by
  rw [encodePart_of_wellFormed h] at hu
  exact mem_written hu

theorem inert_encodePart {part : Text} (h : WellFormed part) : placeholders.Inert (encodePart part) := by
  intro u hu rest
  have hsafe := safe_of_mem_encodePart h hu
  cases hfind : placeholders.find (u :: rest) with
  | none => rfl
  | some items =>
    obtain ⟨name, others, -, -, -, heq⟩ := placeholder_eq_some.1 hfind
    rw [(List.cons.inj heq).1] at hsafe
    exact absurd hsafe not_safe_leftBrace

/-- `+` is no written unit, so that none becomes a blank. -/
theorem map_plus_of_safe {text : Text} (h : ∀ u ∈ text, Safe u) :
    (text.map fun u => if u = plus then blank else u) = text := by
  rw [List.map_congr_left (g := fun u => u), List.map_id']
  intro u hu
  apply if_neg
  intro heq
  have hsafe := h u hu
  rw [heq] at hsafe
  exact not_safe_plus hsafe

/-- A text behind a written part is decoded by itself. -/
theorem decodeURIComponent_encodePart {part : Text} (h : WellFormed part) (rest : Text) :
    decodeURIComponent (encodePart part ++ rest) = (decodeURIComponent rest).map (part ++ ·) := by
  have hpart : utf16 (scalars part) = part := h
  rw [encodePart_of_wellFormed h, decode_escape, hpart]

theorem decodePart_encodePart {part : Text} (h : WellFormed part) : decodePart (encodePart part) = part := by
  have hdecode := decodeURIComponent_encodePart h []
  rw [List.append_nil] at hdecode
  unfold decodePart
  rw [map_plus_of_safe fun u hu => safe_of_mem_encodePart h hu, hdecode]
  exact List.append_nil part

/-! ## The parts of a text -/

structure PlainPieces (pieces : Pieces UInt16) : Prop where
  part : ∀ pair ∈ pieces.pairs, WellFormed pair.1
  match' : ∀ pair ∈ pieces.pairs, placeholder pair.2 = some pair.2
  last : WellFormed pieces.last

theorem exists_name {items : Text} (h : placeholder items = some items) :
    ∃ name, name ≠ [] ∧ rightBrace ∉ name ∧ items = closed name := by
  obtain ⟨name, rest, hne, hname, heq, -⟩ := placeholder_eq_some.1 h
  exact ⟨name, hne, hname, heq⟩

theorem plainPieces {text : Text} (h : WellFormed text) : PlainPieces (placeholders.pieces text) := by
  have hmatch : ∀ pair ∈ (placeholders.pieces text).pairs, placeholder pair.2 = some pair.2 :=
    fun pair hpair => placeholders.find_of_mem_pairs hpair
  have hjoin := placeholders.join_pieces text
  rw [← hjoin] at h
  clear hjoin
  generalize placeholders.pieces text = pieces at h hmatch ⊢
  obtain ⟨pairs, last⟩ := pieces
  induction pairs with
  | nil => exact ⟨fun pair hpair => absurd hpair List.not_mem_nil, hmatch, h⟩
  | cons pair rest ih =>
    obtain ⟨name, -, -, hname⟩ := exists_name (hmatch pair List.mem_cons_self)
    have hsplit : pair.1 ++ (pair.2 ++ (Pieces.mk rest last).join) =
        pair.1 ++ leftBrace :: (leftBrace :: name ++ [rightBrace] ++ rightBrace :: (Pieces.mk rest last).join) := by
      rw [hname]
      unfold closed
      simp only [List.cons_append, List.append_assoc, List.nil_append]
    rw [Pieces.join_cons, hsplit, wellFormed_append_unit (by decide), wellFormed_append_unit (by decide)] at h
    obtain ⟨hpart, -, hrest⟩ := h
    have hplain := ih hrest fun other hother => hmatch other (List.mem_cons_of_mem _ hother)
    refine ⟨?_, hmatch, hplain.last⟩
    intro other hother
    rcases List.mem_cons.1 hother with rfl | hmem
    · exact hpart
    · exact hplain.part other hmem

def placeholdersOf (text : Text) : List Text :=
  (placeholders.pieces text).pairs.map Prod.snd

section Encode

variable {text : Text} (h : WellFormed text)
include h

theorem pieces_encode : placeholders.pieces (encode text) = (placeholders.pieces text).map encodePart := by
  have hplain := plainPieces h
  apply placeholders.pieces_mapOutside
  · intro pair hpair
    exact inert_encodePart (hplain.part pair hpair)
  · exact inert_encodePart hplain.last

/-- What was written is decoded to the same text. -/
theorem decode_encode : decode (encode text) = text := by
  have hplain := plainPieces h
  unfold decode mapOutsidePlaceholders Pattern.mapOutside
  rw [pieces_encode h]
  have hsame : ((placeholders.pieces text).map encodePart).map decodePart = placeholders.pieces text := by
    generalize placeholders.pieces text = pieces at hplain ⊢
    obtain ⟨pairs, last⟩ := pieces
    unfold Pieces.map
    dsimp only
    rw [List.map_map, decodePart_encodePart hplain.last, List.map_congr_left (g := fun pair => pair), List.map_id']
    intro pair hpair
    change (decodePart (encodePart pair.1), pair.2) = pair
    rw [decodePart_encodePart (hplain.part pair hpair)]
  rw [hsame, placeholders.join_pieces]

theorem mem_masked_encode {u : UInt16} (hu : u ∈ masked (encode text)) : u = blank ∨ Safe u := by
  have hplain := plainPieces h
  have hall : ∀ token ∈ placeholders.tokens (encode text), ∀ v, token = Token.unit v → Safe v := by
    intro token htoken v hv
    rw [← placeholders.tokens_pieces, pieces_encode h] at htoken
    unfold Pieces.tokens Pieces.map at htoken
    rcases List.mem_append.1 htoken with hpairs | hlast
    · obtain ⟨pair, hpair, hmem⟩ := List.mem_flatMap.1 hpairs
      obtain ⟨source, hsource, rfl⟩ := List.mem_map.1 hpair
      rcases List.mem_append.1 hmem with hunit | hfound
      · obtain ⟨w, hw, rfl⟩ := List.mem_map.1 hunit
        cases hv
        exact safe_of_mem_encodePart (hplain.part source hsource) hw
      · rw [List.mem_singleton.1 hfound] at hv
        cases hv
    · obtain ⟨w, hw, rfl⟩ := List.mem_map.1 hlast
      cases hv
      exact safe_of_mem_encodePart hplain.last hw
  by_cases hblank : u = blank
  · exact .inl hblank
  · exact .inr (hall _ (Token.unit_mem_of_mem_masks hblank hu) u rfl)

/-- Other units than safe ones are only written in placeholders. -/
theorem mem_encode {u : UInt16} (hu : ¬ Safe u) : u ∈ encode text ↔ ∃ items ∈ placeholdersOf text, u ∈ items := by
  have hplain := plainPieces h
  unfold encode mapOutsidePlaceholders Pattern.mapOutside Pieces.join Pieces.map placeholdersOf
  constructor
  · intro hmem
    rcases List.mem_append.1 hmem with hpairs | hlast
    · obtain ⟨pair, hpair, hin⟩ := List.mem_flatMap.1 hpairs
      obtain ⟨source, hsource, rfl⟩ := List.mem_map.1 hpair
      rcases List.mem_append.1 hin with hpart | hmatch
      · exact absurd (safe_of_mem_encodePart (hplain.part source hsource) hpart) hu
      · exact ⟨source.2, List.mem_map_of_mem hsource, hmatch⟩
    · exact absurd (safe_of_mem_encodePart hplain.last hlast) hu
  · intro hmem
    obtain ⟨items, hitems, hin⟩ := hmem
    obtain ⟨source, hsource, rfl⟩ := List.mem_map.1 hitems
    apply List.mem_append_left
    exact List.mem_flatMap.2 ⟨_, List.mem_map_of_mem hsource, List.mem_append_right _ hin⟩

end Encode

/-! ## A text cut in a placeholder -/

theorem first_unique {mark : UInt16} {first first' rest rest' : Text} (h : first ++ mark :: rest = first' ++ mark :: rest')
    (hfirst : mark ∉ first) (hfirst' : mark ∉ first') : first = first' := by
  have hindex := idxOf?_append_cons hfirst rest
  rw [h, idxOf?_append_cons hfirst' rest', Option.some.injEq] at hindex
  exact (List.append_inj h hindex.symm).1

/-- Where pieces that are written are cut by the first mark in a placeholder. -/
theorem cut_pieces {mark : UInt16} (hmark : ¬ Safe mark) (hleft : mark ≠ leftBrace) (hright : mark ≠ rightBrace)
    {pieces : Pieces UInt16} (hplain : PlainPieces pieces) {cut behind : Text}
    (hcut : mark ∉ cut) (h : (pieces.map encodePart).join = cut ++ mark :: behind) :
    ∃ pairs part opened left others, pieces.join =
        (Pieces.mk pairs (part ++ leftBrace :: leftBrace :: (opened ++ mark :: left))).join ++ others ∧
      PlainPieces (Pieces.mk pairs part) ∧ mark ∉ opened ∧ rightBrace ∉ opened ∧
        cut = (Pieces.mk (pairs.map fun pair => (encodePart pair.1, pair.2))
          (encodePart part ++ leftBrace :: leftBrace :: opened)).join := by
  obtain ⟨pairs, last⟩ := pieces
  induction pairs generalizing cut behind with
  | nil =>
    have hmem : mark ∈ encodePart last := by
      have hjoin : encodePart last = cut ++ mark :: behind := h
      rw [hjoin]
      exact List.mem_append_right _ List.mem_cons_self
    exact absurd (safe_of_mem_encodePart hplain.last hmem) hmark
  | cons pair rest ih =>
    have hpart := hplain.part pair List.mem_cons_self
    have hrest : PlainPieces (Pieces.mk rest last) :=
      ⟨fun other hother => hplain.part other (List.mem_cons_of_mem _ hother),
        fun other hother => hplain.match' other (List.mem_cons_of_mem _ hother), hplain.last⟩
    have hnotMem : mark ∉ encodePart pair.1 := fun hin => hmark (safe_of_mem_encodePart hpart hin)
    have hjoin : encodePart pair.1 ++ (pair.2 ++ ((Pieces.mk rest last).map encodePart).join) = cut ++ mark :: behind := by
      rw [← h]
      exact (Pieces.join_cons (encodePart pair.1, pair.2) _ _).symm
    obtain ⟨name, -, hname, hitems⟩ := exists_name (hplain.match' pair List.mem_cons_self)
    by_cases hmem : mark ∈ name
    · obtain ⟨opened, left, rfl, hopened⟩ := List.eq_append_cons_of_mem hmem
      rw [List.mem_append, not_or] at hname
      have hfirst : mark ∉ encodePart pair.1 ++ leftBrace :: leftBrace :: opened := by
        rw [List.mem_append, List.mem_cons, List.mem_cons, not_or, not_or, not_or]
        exact ⟨hnotMem, hleft, hleft, hopened⟩
      have hsame : encodePart pair.1 ++ leftBrace :: leftBrace :: opened ++
          mark :: (left ++ [rightBrace, rightBrace] ++ ((Pieces.mk rest last).map encodePart).join) = cut ++ mark :: behind := by
        rw [← hjoin, hitems]
        unfold closed
        simp only [List.cons_append, List.append_assoc]
      refine ⟨[], pair.1, opened, left, rightBrace :: rightBrace :: (Pieces.mk rest last).join, ?_, ?_, hopened, hname.1,
        (first_unique hsame hfirst hcut).symm⟩
      · rw [Pieces.join_cons, hitems]
        unfold closed
        change _ = pair.1 ++ leftBrace :: leftBrace :: (opened ++ mark :: left) ++ _
        simp only [List.cons_append, List.append_assoc, List.nil_append]
      · exact ⟨fun other hother => absurd hother List.not_mem_nil, fun other hother => absurd hother List.not_mem_nil, hpart⟩
    · have hpair : mark ∉ encodePart pair.1 ++ pair.2 := by
        rw [hitems, List.mem_append, not_or]
        refine ⟨hnotMem, ?_⟩
        unfold closed
        rw [List.mem_cons, List.mem_cons, List.mem_append, List.mem_cons, List.mem_singleton]
        tauto
      rw [← List.append_assoc] at hjoin
      have hlater : mark ∈ ((Pieces.mk rest last).map encodePart).join := by
        have hwhole : mark ∈ cut ++ mark :: behind := List.mem_append_right _ List.mem_cons_self
        rw [← hjoin, List.mem_append] at hwhole
        exact hwhole.resolve_left hpair
      obtain ⟨more, after, hmore, hnot⟩ := List.eq_append_cons_of_mem hlater
      have hcutEq : encodePart pair.1 ++ pair.2 ++ more = cut := by
        rw [hmore, ← List.append_assoc] at hjoin
        apply first_unique hjoin _ hcut
        rw [List.mem_append, not_or]
        exact ⟨hpair, hnot⟩
      obtain ⟨pairs, part, opened, left, others, heq, hsome, hopened, hbrace, hinner⟩ := ih hnot hrest hmore
      refine ⟨pair :: pairs, part, opened, left, others, ?_, ⟨?_, ?_, hsome.last⟩, hopened, hbrace, ?_⟩
      · rw [Pieces.join_cons, heq, Pieces.join_cons, List.append_assoc, List.append_assoc]
      · intro other hother
        rcases List.mem_cons.1 hother with rfl | hin
        · exact hpart
        · exact hsome.part other hin
      · intro other hother
        rcases List.mem_cons.1 hother with rfl | hin
        · exact hplain.match' other List.mem_cons_self
        · exact hsome.match' other hin
      · rw [← hcutEq, hinner, List.map_cons, Pieces.join_cons, List.append_assoc]

/-- Braces that are not closed make the part they are in longer; decoded, it
is no longer than it was, or as it was. -/
theorem decodePart_opened_ne {part opened left others : Text} (h : WellFormed part) (hopened : valueSeparator ∉ opened) :
    decodePart (encodePart part ++ leftBrace :: leftBrace :: opened) ≠
      part ++ leftBrace :: leftBrace :: (opened ++ valueSeparator :: left) ++ others := by
  intro heq
  have hmap : ((encodePart part ++ leftBrace :: leftBrace :: opened).map fun u => if u = plus then blank else u) =
      encodePart part ++ (leftBrace :: leftBrace :: opened).map fun u => if u = plus then blank else u := by
    rw [List.map_append, map_plus_of_safe fun u hu => safe_of_mem_encodePart h hu]
  unfold decodePart at heq
  rw [hmap, decodeURIComponent_encodePart h] at heq
  cases hdecode : decodeURIComponent ((leftBrace :: leftBrace :: opened).map fun u => if u = plus then blank else u) with
  | none =>
    rw [hdecode] at heq
    change encodePart part ++ leftBrace :: leftBrace :: opened = _ at heq
    have hmem : valueSeparator ∈ encodePart part ++ leftBrace :: leftBrace :: opened := by
      rw [heq]
      simp only [List.mem_append, List.mem_cons, true_or, or_true]
    rw [List.mem_append, List.mem_cons, List.mem_cons] at hmem
    rcases hmem with hin | hin | hin | hin
    · exact not_safe_valueSeparator (safe_of_mem_encodePart h hin)
    · exact absurd hin (by decide)
    · exact absurd hin (by decide)
    · exact hopened hin
  | some decoded =>
    rw [hdecode] at heq
    change part ++ decoded = _ at heq
    have hle := length_decode hdecode
    have hlength := congrArg List.length heq
    simp only [List.length_append, List.length_cons, List.length_map] at hle hlength
    omega

/-- A key that is cut in a placeholder is read as another one. -/
theorem decode_cut_ne {key cut behind : Text} (h : WellFormed key) (hkey : encode key = cut ++ valueSeparator :: behind)
    (hcut : valueSeparator ∉ cut) : decode cut ≠ key := by
  obtain ⟨pairs, part, opened, left, others, heq, hplain, hopened, hbrace, hwritten⟩ :=
    cut_pieces not_safe_valueSeparator (by decide) (by decide) (plainPieces h) hcut hkey
  rw [placeholders.join_pieces] at heq
  have htokens : placeholders.tokens (encodePart part ++ leftBrace :: leftBrace :: opened) =
      (encodePart part ++ leftBrace :: leftBrace :: opened).map Token.unit := by
    rw [placeholders.tokens_inert (inert_encodePart hplain.last), tokens_of_notMem_rightBrace, List.map_append]
    rw [List.mem_cons, List.mem_cons, not_or, not_or]
    exact ⟨by decide, by decide, hbrace⟩
  have hpieces : placeholders.pieces cut =
      Pieces.mk (pairs.map fun pair => (encodePart pair.1, pair.2)) (encodePart part ++ leftBrace :: leftBrace :: opened) := by
    apply placeholders.pieces_of_tokens
    rw [hwritten]
    apply placeholders.tokens_join _ htokens
    intro pair hpair
    obtain ⟨source, hsource, rfl⟩ := List.mem_map.1 hpair
    exact ⟨inert_encodePart (hplain.part source hsource), hplain.match' source hsource⟩
  have hdecode : decode cut =
      (Pieces.mk pairs (decodePart (encodePart part ++ leftBrace :: leftBrace :: opened))).join := by
    have hpairs : (pairs.map fun pair => (encodePart pair.1, pair.2)).map (fun pair => (decodePart pair.1, pair.2)) = pairs := by
      rw [List.map_map, List.map_congr_left (g := fun pair => pair), List.map_id']
      intro pair hpair
      change (decodePart (encodePart pair.1), pair.2) = pair
      rw [decodePart_encodePart (hplain.part pair hpair)]
    unfold decode mapOutsidePlaceholders Pattern.mapOutside
    rw [hpieces]
    unfold Pieces.map
    rw [hpairs]
  intro hsame
  rw [hdecode, heq] at hsame
  unfold Pieces.join at hsame
  rw [List.append_assoc, List.append_cancel_left_eq] at hsame
  exact decodePart_opened_ne hplain.last hopened hsame

end Gostman.Query
