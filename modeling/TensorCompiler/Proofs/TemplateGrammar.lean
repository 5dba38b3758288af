import TensorCompiler.Proofs.TemplateText
/-!
# The grammar of templates

Parsing cuts a text at its delimiters and takes every second piece for a request. It accepts exactly
the texts that consist of requests between other texts, and it keeps the other texts as they are.
Blanks may surround a request as well as each of its parts, and they are all that is lost.

* `Delimited`: the pieces of a text; `delimited_iff`: these are the ones that parsing works with.
* `Padded`: something with blanks around it; `Text.trim_of_padded`: what trimming finds.
* `Request.SpelledAs`: the grammar of requests; `Request.parse?_eq_some_iff`.
* `Template.Spells`: the segments of pieces; `Template.ofPieces_eq_ok_iff`.
* `Template.parse_exact`: the texts that are accepted, and what they are parsed as.
-/

namespace TensorCompiler

/-! ## Pieces between delimiters -/

/-- The pieces of a text between its delimiters, which are taken from the left and do not overlap. No
delimiter begins within a piece, not even one that would end with the next percent sign. -/
inductive Delimited : List Char → List (List Char) → Prop
  | last {text : List Char} : ¬delimiter <:+: text → Delimited text [text]
  | cut {piece rest : List Char} {pieces : List (List Char)} :
      ¬delimiter <:+: piece ++ ['%'] → Delimited rest pieces →
        Delimited (piece ++ delimiter ++ rest) (piece :: pieces)

section

variable {c : Char} {piece rest text source : List Char} {pieces : List (List Char)}

theorem Delimited.cons (hc : c ≠ '%' ∨ rest.head? ≠ some '%')
    (h : Delimited rest (piece :: pieces)) : Delimited (c :: rest) ((c :: piece) :: pieces) := by
  cases h with
  | last hlast => exact .last (not_delimiter_infix_cons.2 ⟨hc, hlast⟩)
  | cut hcut hrest =>
    exact @Delimited.cut (c :: piece) _ _ (not_delimiter_infix_cons.2 ⟨head?_cut ▸ hc, hcut⟩) hrest

theorem delimited_splitDelimiters (source : List Char) :
    Delimited source (splitDelimiters source) := by
  induction source using splitDelimiters.induct with
  | case1 => exact .last (by simp [delimiter])
  | case2 rest ih => exact @Delimited.cut [] _ _ (by decide) ih
  | case3 c rest hnot piece pieces hsplit ih =>
    have hc : c ≠ '%' ∨ rest.head? ≠ some '%' := by
      by_contra hboth
      obtain ⟨hc, hrest⟩ := not_or.1 hboth
      obtain ⟨tail, ht⟩ := List.head?_eq_some_iff.1 (not_not.1 hrest)
      exact hnot tail (not_not.1 hc) ht
    rw [splitDelimiters_cons hc hsplit]
    exact (hsplit ▸ ih).cons hc
  | case4 c rest hnot hsplit ih =>
    -- A text has at least one piece.
    rw [hsplit] at ih
    cases ih

/-- There is one way to cut a text, and it is the one that parsing takes. -/
theorem delimited_iff : Delimited source pieces ↔ splitDelimiters source = pieces := by
  constructor
  · intro h
    induction h with
    | last h => exact splitDelimiters_last h
    | cut h _ ih => rw [splitDelimiters_cut h, ih]
  · rintro rfl
    exact delimited_splitDelimiters source

theorem Delimited.ne_nil (h : Delimited source pieces) : pieces ≠ [] := by
  cases h <;> exact List.cons_ne_nil _ _

/-- A text is its pieces with the delimiters between them. -/
theorem Delimited.intercalate_eq (h : Delimited source pieces) :
    delimiter.intercalate pieces = source := by
  induction h with
  | last => exact List.intercalate_singleton
  | cut _ hrest ih =>
    rw [List.intercalate_cons_of_ne_nil hrest.ne_nil, ih]

end

/-! ## Blanks -/

/-- A text with blanks around it. -/
def Padded (core text : List Char) : Prop :=
  ∃ before behind, text = before ++ core ++ behind ∧
    (∀ c ∈ before, Text.isBlank c = true) ∧ ∀ c ∈ behind, Text.isBlank c = true

/-- There is something, and it neither begins nor ends with a blank. -/
structure Solid (core : List Char) : Prop where
  ne_nil : core ≠ []
  first : ∀ c ∈ core.head?, Text.isBlank c = false
  last : ∀ c ∈ core.getLast?, Text.isBlank c = false

namespace Text

variable {c : Char} {core text head xs ys : List Char}

theorem padded_trim (text : List Char) : Padded (trim text) text := by
  let rest := text.dropWhile isBlank
  have hfront : text.takeWhile isBlank ++ rest = text := List.takeWhile_append_dropWhile
  have hback : trim text ++ (rest.reverse.takeWhile isBlank).reverse = rest := by
    have hsplit : rest.reverse.takeWhile isBlank ++ rest.reverse.dropWhile isBlank = rest.reverse :=
      List.takeWhile_append_dropWhile
    exact List.reverse_append.symm.trans ((congrArg List.reverse hsplit).trans rest.reverse_reverse)
  refine ⟨text.takeWhile isBlank, (rest.reverse.takeWhile isBlank).reverse, ?_, ?_, ?_⟩
  · rw [List.append_assoc, hback, hfront]
  · exact fun c hc => List.mem_takeWhile_imp hc
  · exact fun c hc => List.mem_takeWhile_imp (List.mem_reverse.1 hc)

/-- Trimming finds what the blanks are around. -/
theorem trim_of_padded (h : Padded core text) (hcore : Solid core) : trim text = core := by
  obtain ⟨before, behind, rfl, hbefore, hbehind⟩ := h
  have hfront : (core ++ behind).dropWhile isBlank = core ++ behind :=
    dropWhile_of_head (by rw [List.head?_append_of_ne_nil _ hcore.ne_nil]; exact hcore.first)
  have hback : core.reverse.dropWhile isBlank = core.reverse :=
    dropWhile_of_head (by rw [List.head?_reverse]; exact hcore.last)
  rw [trim, List.append_assoc, List.dropWhile_append_of_pos hbefore, hfront, List.reverse_append,
    List.dropWhile_append_of_pos fun c hc => hbehind c (List.mem_reverse.1 hc), hback,
    List.reverse_reverse]

/-- A text is cut at the first occurrence. -/
theorem cut?_eq_some_iff : cut? c text = some (xs, ys) ↔ text = xs ++ c :: ys ∧ c ∉ xs := by
  constructor
  · intro h
    induction text generalizing xs with
    | nil => cases h
    | cons x text ih =>
      unfold cut? at h
      split at h
      · next hx =>
        cases h
        exact ⟨hx ▸ rfl, List.not_mem_nil⟩
      · next hx =>
        obtain ⟨⟨as, bs⟩, hcut, he⟩ := Option.map_eq_some_iff.1 h
        cases he
        obtain ⟨rfl, hmem⟩ := ih hcut
        exact ⟨rfl, fun h => (List.mem_cons.1 h).elim (fun e => hx e.symm) hmem⟩
  · rintro ⟨rfl, h⟩
    exact cut?_append h ys

theorem dropLast?_eq_some_iff : dropLast? c text = some xs ↔ text = xs ++ [c] := by
  constructor
  · intro h
    obtain ⟨hlast, hxs⟩ := Option.ite_none_right_eq_some.1 h
    rw [← Option.some.inj hxs]
    exact (List.dropLast_append_getLast? _ hlast).symm
  · rintro rfl
    exact dropLast?_append c xs

end Text

/-! ## Requests -/

/-- A non-empty run of ASCII letters, digits and underscores. -/
def IsIdentifier (word : List Char) : Prop :=
  word ≠ [] ∧ ∀ c ∈ word,
    ('a' ≤ c ∧ c ≤ 'z') ∨ ('A' ≤ c ∧ c ≤ 'Z') ∨ ('0' ≤ c ∧ c ≤ '9') ∨ c = '_'

/-- A keyword with arguments in parentheses. -/
def IsCall (keyword arguments body : List Char) : Prop :=
  ∃ head, Padded keyword head ∧ Padded (head ++ '(' :: (arguments ++ [')'])) body

/-- The texts of a request: blanks may surround the whole of it, its keyword, its type and its
name. -/
inductive Request.SpelledAs : Request → List Char → Prop
  | funcName {body : List Char} : Padded "FUNC_NAME".toList body → SpelledAs .funcName body
  | loadBuffer {name : String} {argument body : List Char} : IsIdentifier name.toList →
      Padded name.toList argument → IsCall "LOAD_BUFFER".toList argument body →
        SpelledAs (.loadBuffer name) body
  | uniform {type name : String} {first second body : List Char} : IsIdentifier type.toList →
      IsIdentifier name.toList → Padded type.toList first → Padded name.toList second →
        IsCall "UNIFORM".toList (first ++ ',' :: second) body → SpelledAs (.uniform type name) body

section

variable {word keyword arguments head body : List Char} {c : Char}

theorem isName_iff : isName word = true ↔ IsIdentifier word := by
  have hchar : ∀ c : Char, (c.isAlphanum || c == '_') = true ↔
      ('a' ≤ c ∧ c ≤ 'z') ∨ ('A' ≤ c ∧ c ≤ 'Z') ∨ ('0' ≤ c ∧ c ≤ '9') ∨ c = '_' := by
    intro c
    simp only [Char.isAlphanum, Char.isAlpha, Char.isUpper, Char.isLower, Char.isDigit,
      Bool.or_eq_true, Bool.and_eq_true, decide_eq_true_eq, beq_iff_eq, Char.le_def]
    tauto
  rw [isName, Bool.and_eq_true, List.all_eq_true, IsIdentifier]
  refine and_congr ?_ (forall₂_congr fun c _ => hchar c)
  cases word <;> simp

theorem solid_of_isName (h : isName word = true) : Solid word where
  ne_nil := (isName_iff.1 h).1
  first _ hc := not_blank_of_isName h (List.mem_of_mem_head? hc)
  last _ hc := not_blank_of_isName h (List.mem_of_mem_getLast? hc)

/-- What is no blank does not come in by padding. -/
theorem Padded.not_mem (h : Padded word head) (hblank : Text.isBlank c = false) (hc : c ∉ word) :
    c ∉ head := by
  obtain ⟨before, behind, rfl, hbefore, hbehind⟩ := h
  simp only [List.mem_append, not_or]
  refine ⟨⟨fun hmem => ?_, hc⟩, fun hmem => ?_⟩
  · simp [hbefore c hmem] at hblank
  · simp [hbehind c hmem] at hblank

/-- The word that trimming finds. -/
theorem padded_word (h : isName (Text.trim head) = true) :
    IsIdentifier (String.ofList (Text.trim head)).toList ∧
      Padded (String.ofList (Text.trim head)).toList head := by
  rw [String.toList_ofList]
  exact ⟨isName_iff.1 h, Text.padded_trim head⟩

/-- A call begins with its keyword, once the blanks around it are gone. -/
theorem IsCall.trim_eq (hkeyword : isName keyword = true) (h : IsCall keyword arguments body) :
    ∃ head, Text.trim body = head ++ '(' :: (arguments ++ [')']) ∧ Text.trim head = keyword ∧
      '(' ∉ head := by
  obtain ⟨head, ⟨before, gap, rfl, hbefore, hgap⟩, ⟨front, back, rfl, hfront, hback⟩⟩ := h
  have hsolid := solid_of_isName hkeyword
  have hhead : Padded keyword (keyword ++ gap) := ⟨[], gap, rfl, by simp, hgap⟩
  refine ⟨keyword ++ gap, Text.trim_of_padded ⟨front ++ before, back, by simp, ?_, hback⟩ ?_,
    Text.trim_of_padded hhead hsolid,
    hhead.not_mem (by decide) (not_mem_of_isName hkeyword (by decide) (by decide))⟩
  · exact fun c hc => (List.mem_append.1 hc).elim (hfront c) (hbefore c)
  · refine ⟨by simp, fun c hc => ?_, fun c hc => ?_⟩
    · rw [List.append_assoc, List.head?_append_of_ne_nil _ hsolid.ne_nil] at hc
      exact hsolid.first c hc
    · rw [List.getLast?_append_cons, ← List.cons_append, List.getLast?_concat] at hc
      obtain rfl := Option.some.inj hc
      decide

namespace Request

variable {r : Request}

theorem parse?_of_spelledAs (h : r.SpelledAs body) : parse? body = some r := by
  obtain ⟨hfunc, hload, huniform⟩ := isName_keywords
  delta parse?
  dsimp only
  cases h with
  | funcName h =>
    rw [Text.trim_of_padded h (solid_of_isName hfunc), if_pos rfl]
    rfl
  | @loadBuffer name argument _ hname hargument hcall =>
    have hword := isName_iff.2 hname
    obtain ⟨head, hbody, hhead, hparen⟩ := hcall.trim_eq hload
    rw [hbody, if_neg call_ne, Text.cut?_append hparen]
    simp only [Option.bind_eq_bind, Option.bind_some, Text.dropLast?_append, hhead, if_true,
      Text.trim_of_padded hargument (solid_of_isName hword)]
    simp [hword]
  | @uniform type name first second _ htype hname hfirst hsecond hcall =>
    have hne : ¬"UNIFORM".toList = "LOAD_BUFFER".toList := by simp
    have htype := isName_iff.2 htype
    have hname := isName_iff.2 hname
    have hcomma : ',' ∉ first :=
      hfirst.not_mem (by decide) (not_mem_of_isName htype (by decide) (by decide))
    obtain ⟨head, hbody, hhead, hparen⟩ := hcall.trim_eq huniform
    rw [hbody, if_neg call_ne, Text.cut?_append hparen]
    simp only [Option.bind_eq_bind, Option.bind_some, Text.dropLast?_append, hhead, if_neg hne,
      if_true, Text.cut?_append hcomma, Text.trim_of_padded hfirst (solid_of_isName htype),
      Text.trim_of_padded hsecond (solid_of_isName hname)]
    simp [htype, hname]

theorem spelledAs_of_parse? (h : parse? body = some r) : r.SpelledAs body := by
  delta parse? at h
  dsimp only at h
  split at h
  · next hfunc =>
    cases h
    exact .funcName (hfunc ▸ Text.padded_trim body)
  · obtain ⟨⟨head, rest⟩, hcut, h⟩ := Option.bind_eq_some_iff.1 h
    obtain ⟨arguments, hdrop, h⟩ := Option.bind_eq_some_iff.1 h
    obtain ⟨hbody, -⟩ := Text.cut?_eq_some_iff.1 hcut
    obtain rfl := Text.dropLast?_eq_some_iff.1 hdrop
    have hcall : IsCall (Text.trim head) arguments body :=
      ⟨head, Text.padded_trim head, hbody ▸ Text.padded_trim body⟩
    split at h
    · next hload =>
      rw [hload] at hcall
      obtain ⟨hname, rfl⟩ : isName (Text.trim arguments) = true ∧
          loadBuffer (String.ofList (Text.trim arguments)) = r := by
        simpa [guard, Option.bind_eq_some_iff] using h
      obtain ⟨hname, hargument⟩ := padded_word hname
      exact .loadBuffer hname hargument hcall
    · split at h
      · next huniform =>
        rw [huniform] at hcall
        obtain ⟨⟨first, second⟩, hcomma, h⟩ := Option.bind_eq_some_iff.1 h
        obtain ⟨⟨htype, hname⟩, rfl⟩ : (isName (Text.trim first) = true ∧
            isName (Text.trim second) = true) ∧ uniform (String.ofList (Text.trim first))
              (String.ofList (Text.trim second)) = r := by
          simpa [guard, Option.bind_eq_some_iff] using h
        obtain ⟨rfl, -⟩ := Text.cut?_eq_some_iff.1 hcomma
        obtain ⟨htype, hfirst⟩ := padded_word htype
        obtain ⟨hname, hsecond⟩ := padded_word hname
        exact .uniform htype hname hfirst hsecond hcall
      · cases h

/-- Parsing accepts exactly the texts of requests. -/
theorem parse?_eq_some_iff : parse? body = some r ↔ r.SpelledAs body :=
  ⟨spelledAs_of_parse?, parse?_of_spelledAs⟩

end Request

end

/-! ## Templates -/

namespace Template

/-- The pieces that are enclosed by delimiters: every second one. -/
def enclosed : List (List Char) → List (List Char)
  | _ :: body :: rest => body :: enclosed rest
  | _ => []

/-- The segments of pieces: the texts outside, as far as they are not empty, and between them the
requests that the others spell. -/
inductive Spells : List (List Char) → List Segment → Prop
  | last {text : List Char} : Spells [text] (outer text)
  | cut {text body : List Char} {r : Request} {rest : List (List Char)} {segments : List Segment} :
      r.SpelledAs body → Spells rest segments →
        Spells (text :: body :: rest) (outer text ++ .request r :: segments)

/-- Puts pieces back between delimiters, in the places of the requests. -/
def restore : List Segment → List (List Char) → List Char
  | [], _ => []
  | .text text :: segments, bodies => text.toList ++ restore segments bodies
  | .request _ :: segments, body :: bodies =>
    delimiter ++ body ++ delimiter ++ restore segments bodies
  | .request _ :: _, [] => []

section

variable {pieces : List (List Char)} {segments : List Segment} {source : String}

theorem ofPieces_eq_ok_iff (hodd : pieces.length % 2 = 1) :
    ofPieces pieces = .ok segments ↔ Spells pieces segments := by
  induction pieces using ofPieces.induct generalizing segments with
  | case1 text body rest r hparse ih =>
    have hrest : rest.length % 2 = 1 := by
      rw [List.length_cons, List.length_cons] at hodd
      omega
    rw [ofPieces, hparse]
    simp only [bind_ok_iff, pure_ok_iff, ih hrest]
    constructor
    · rintro ⟨segments, hsegments, rfl⟩
      exact .cut (Request.spelledAs_of_parse? hparse) hsegments
    · intro h
      cases h with
      | cut hr hsegments =>
        obtain rfl := Option.some.inj (hparse.symm.trans (Request.parse?_of_spelledAs hr))
        exact ⟨_, hsegments, rfl⟩
  | case2 text body rest hparse =>
    rw [ofPieces, hparse]
    constructor
    · intro h
      cases h
    · intro h
      cases h with
      | cut hr => cases hparse.symm.trans (Request.parse?_of_spelledAs hr)
  | case3 text =>
    constructor
    · intro h
      cases h
      exact .last
    · intro h
      cases h
      rfl
  | case4 => cases hodd

/-- There are segments exactly if every enclosed piece is a request. -/
theorem exists_spells_iff (hodd : pieces.length % 2 = 1) :
    (∃ segments, Spells pieces segments) ↔
      ∀ body ∈ enclosed pieces, ∃ r : Request, r.SpelledAs body := by
  induction pieces using enclosed.induct with
  | case1 text body rest ih =>
    have hrest : rest.length % 2 = 1 := by
      rw [List.length_cons, List.length_cons] at hodd
      omega
    rw [enclosed, List.forall_mem_cons, ← ih hrest]
    constructor
    · rintro ⟨_, h⟩
      cases h with
      | cut hr hsegments => exact ⟨⟨_, hr⟩, _, hsegments⟩
    · rintro ⟨⟨r, hr⟩, segments, hsegments⟩
      exact ⟨_, .cut hr hsegments⟩
  | case2 pieces hshort =>
    obtain ⟨text, rfl⟩ : ∃ text, pieces = [text] := by
      rcases pieces with - | ⟨text, - | ⟨body, rest⟩⟩
      · cases hodd
      · exact ⟨text, rfl⟩
      · exact (hshort _ _ _ rfl).elim
    exact ⟨fun _ _ hbody => (List.not_mem_nil hbody).elim, fun _ => ⟨_, .last⟩⟩

theorem parse_eq_ok_iff {t : Template} : parse source = .ok t ↔
    (splitDelimiters source.toList).length % 2 = 1 ∧
      Spells (splitDelimiters source.toList) t.segments := by
  simp only [parse, bind_ok_iff, guard_ok_iff, pure_ok_iff, Nat.mod_two_ne_zero]
  refine and_congr_right fun hodd => ?_
  constructor
  · rintro ⟨segments, hsegments, rfl⟩
    exact (ofPieces_eq_ok_iff hodd).1 hsegments
  · exact fun h => ⟨_, (ofPieces_eq_ok_iff hodd).2 h, rfl⟩

theorem restore_outer (text : List Char) (segments : List Segment) (bodies : List (List Char)) :
    restore (outer text ++ segments) bodies = text ++ restore segments bodies := by
  unfold outer
  split
  · next h => rw [List.isEmpty_iff.1 h, List.nil_append, List.nil_append]
  · rw [List.singleton_append, restore, String.toList_ofList]

theorem Spells.ne_nil (h : Spells pieces segments) : pieces ≠ [] := by
  cases h <;> exact List.cons_ne_nil _ _

/-- Nothing is lost but what the requests leave out of their pieces. -/
theorem Spells.restore_eq (h : Spells pieces segments) :
    restore segments (enclosed pieces) = delimiter.intercalate pieces := by
  induction h with
  | @last text =>
    rw [← List.append_nil (outer text), restore_outer, restore, List.append_nil,
      List.intercalate_singleton]
  | cut _ hrest ih =>
    rw [restore_outer, enclosed, restore, ih,
      List.intercalate_cons_of_ne_nil (List.cons_ne_nil _ _),
      List.intercalate_cons_of_ne_nil hrest.ne_nil]
    simp only [List.append_assoc]

/-- Parsing accepts a text exactly if its delimiters come in pairs and each pair encloses a request.
Then it gives the texts outside as they are and the requests between them, in order, and the text
is what comes of putting the enclosed pieces back. -/
theorem parse_exact (source : String) : ∃ pieces, (∀ ps, Delimited source.toList ps ↔ ps = pieces) ∧
    ((∃ t, parse source = .ok t) ↔ Even (pieces.length - 1) ∧
      ∀ body ∈ enclosed pieces, ∃ r : Request, r.SpelledAs body) ∧
    ∀ t, parse source = .ok t →
      Spells pieces t.segments ∧ restore t.segments (enclosed pieces) = source.toList := by
  have hpieces := delimited_splitDelimiters source.toList
  refine ⟨splitDelimiters source.toList, fun ps => delimited_iff.trans eq_comm, ?_, fun t ht => ?_⟩
  · have hpos := List.length_pos_iff.2 hpieces.ne_nil
    have heven : Even ((splitDelimiters source.toList).length - 1) ↔
        (splitDelimiters source.toList).length % 2 = 1 := by
      rw [Nat.even_iff]
      omega
    rw [heven]
    constructor
    · rintro ⟨t, ht⟩
      obtain ⟨hodd, hspells⟩ := parse_eq_ok_iff.1 ht
      exact ⟨hodd, (exists_spells_iff hodd).1 ⟨_, hspells⟩⟩
    · rintro ⟨hodd, hbodies⟩
      obtain ⟨segments, hspells⟩ := (exists_spells_iff hodd).2 hbodies
      exact ⟨⟨segments⟩, parse_eq_ok_iff.2 ⟨hodd, hspells⟩⟩
  · obtain ⟨-, hspells⟩ := parse_eq_ok_iff.1 ht
    exact ⟨hspells, hspells.restore_eq.trans hpieces.intercalate_eq⟩

/-- Blanks around the parts of a request. -/
theorem parse_exact_blanks : ∃ pieces, Delimited "in %%UNIFORM( ivec4 , shape )%%;".toList pieces ∧
    ∃ t, parse "in %%UNIFORM( ivec4 , shape )%%;" = .ok t ∧ Spells pieces t.segments := by
  obtain ⟨pieces, hpieces, -, hspells⟩ := parse_exact "in %%UNIFORM( ivec4 , shape )%%;"
  have hparse : parse "in %%UNIFORM( ivec4 , shape )%%;" =
      .ok ⟨[.text "in ", .request (.uniform "ivec4" "shape"), .text ";"]⟩ := rfl
  exact ⟨pieces, (hpieces pieces).2 rfl, _, hparse, (hspells _ hparse).1⟩

/-- Delimiters are taken from the left, so a third percent sign belongs to what follows. -/
example : parse "a%%%FUNC_NAME%%" = .error (.malformed "%FUNC_NAME") := rfl

end

end Template

end TensorCompiler
