import Caret.Proofs.Context.Carried
import Caret.Proofs.Document.Paired
import Caret.Proofs.Lexer.Returns

/-!
# Line endings make no difference

A newline may be written as a line feed or as a carriage return and a line feed. A text in which all
newlines are written in the second way has the same tree but for that, and the same is completed
at each place of it, further on by the carriage returns in front of the place.
-/

namespace Caret

/-- A token as it is written where newlines have carriage returns. -/
def Token.returned (token : Token) : String :=
  if token.kind = .newline then "\r\n" else token.text

theorem Lexer.fst_returned (leaf : Kind × String) : (returned leaf).1 = leaf.1 := by
  unfold returned
  split
  · exact Eq.symm ‹_›
  · rfl

theorem Token.returned_eq (token : Token) : token.returned = (Lexer.returned token.leaf).2 := by
  unfold returned Lexer.returned Token.leaf
  split <;> rfl

namespace Document

/-- A text with a carriage return in front of the line feed of every newline. -/
def returned (text : String) : String := String.join ((tokenize text).map Token.returned)

/-- The number of newlines that end at or before an offset. -/
def newlines (text : String) (offset : Nat) : Nat :=
  (tokenize text).countP fun token => token.kind = .newline && token.stop ≤ offset

theorem newlines_mono (text : String) : Monotone (newlines text) := fun m n h =>
  List.countP_mono_left fun token _ htoken => by
    simp only [Bool.and_eq_true, decide_eq_true_eq] at htoken ⊢
    exact ⟨htoken.1, Nat.le_trans htoken.2 h⟩

/-- How the places of a text are moved when its newlines get carriage returns. -/
def returns (text : String) : Relocation where
  place offset := offset + newlines text offset
  strictMono := fun _ _ h => Nat.add_lt_add_of_lt_of_le h (newlines_mono text (Nat.le_of_lt h))
  spell _ := "\r\n"

variable {text : String}

theorem toList_returned (text : String) :
    (returned text).toList =
      Lexer.spelling ((Lexer.cutLeaves [] text.toList).map Lexer.returned) := by
  have hleaves : (tokenize text).flatMap (fun token => token.returned.toList) =
      Lexer.spelling (((tokenize text).map Token.leaf).map Lexer.returned) := by
    simp only [Lexer.spelling, List.flatMap_map, Token.returned_eq]
  rw [returned, String.toList_join, List.flatMap_map, hleaves, map_leaf_tokenize, List.map_append,
    Lexer.spelling, List.flatMap_append]
  exact List.append_nil _

/-- The tokens of a text whose newlines get carriage returns are its own but for them. -/
theorem map_leaf_returned (h : '\r' ∉ text.toList) :
    (tokenize (returned text)).map Token.leaf =
      (tokenize text).map fun token => Lexer.returned token.leaf := by
  have hleaves : (tokenize text).map (fun token => Lexer.returned token.leaf) =
      ((tokenize text).map Token.leaf).map Lexer.returned := by
    rw [List.map_map]
    rfl
  rw [hleaves, map_leaf_tokenize, map_leaf_tokenize, toList_returned,
    (Lexer.cutLeaves_returned h).2, List.map_append]
  rfl

end Document

/-- The same token with a carriage return if it is a newline. -/
def Token.Returned (token other : Token) : Prop := other.leaf = Lexer.returned token.leaf

theorem Token.Returned.kind_eq {token other : Token} (h : Returned token other) :
    other.kind = token.kind := (congrArg Prod.fst h).trans (Lexer.fst_returned _)

theorem Token.Returned.text_eq {token other : Token} (h : Returned token other) :
    other.text = if token.kind = .newline then "\r\n" else token.text :=
  (congrArg Prod.snd h).trans token.returned_eq.symm

theorem Token.Returned.ofToken_eq {token other : Token} (h : Returned token other) :
    Tree.ofToken other = (Tree.ofToken token).respell fun _ => "\r\n" := by
  rw [Tree.ofToken, h.kind_eq, h.text_eq]
  rfl

namespace Rule

/-- Readings of the same lexemes with carriage returns in the newlines. -/
def returned : Likeness where
  lexeme := Lexeme.Paired Token.Returned
  trees left right := right = Tree.respellAll (fun _ => "\r\n") left
  error _ _ := True
  kind_eq h := h.token.kind_eq.symm
  text_eq {x y} h hident := by
    have hne : x.token.kind ≠ .newline := by
      rw [show x.token.kind = .ident from hident]
      decide
    rw [h.token.text_eq, if_neg hne]
  settled h := ⟨.nil, h.token⟩
  lead {x y} h := by
    have hlead := h.lead
    generalize x.lead = lead at hlead
    generalize y.lead = lead' at hlead
    induction hlead with
    | nil => rfl
    | cons htoken _ ih =>
        rw [List.map_cons, List.map_cons, Tree.respellAll, ← htoken.ofToken_eq, ih]
  leaf {x y tag} h hbecomes := by
    have hline : tag = .newline ↔ x.token.kind = .newline := hbecomes.eq_newline_iff
    rw [h.token.text_eq, Tree.respellAll, Tree.respell, Tree.respellAll]
    simp only [hline]
  located _ _ := trivial
  nil := by rw [Tree.respellAll]
  append hleft hright := by rw [hleft, hright, Tree.respellAll_append]
  wrapped kind children children' h := by
    rw [h]
    rfl

end Rule

namespace Document

variable {text : String}

/-- A text whose newlines get carriage returns has the same tree but for them. -/
theorem tree_returned (h : '\r' ∉ text.toList) :
    (parse (returned text)).tree = (parse text).tree.respell (returns text).spell := by
  have hpaired : List.Forall₂ Token.Returned (tokenize text) (tokenize (returned text)) := by
    have heq : List.Forall₂ (· = ·) ((tokenize (returned text)).map Token.leaf)
        ((tokenize text).map fun token => Lexer.returned token.leaf) := by
      rw [List.forall₂_eq_eq_eq]
      exact map_leaf_returned h
    rw [List.forall₂_map_left_iff, List.forall₂_map_right_iff] at heq
    exact heq.flip
  have hinputs : Rule.returned.Inputs (input text) (input (returned text)) :=
    inputs_of_paired (fun h => h.kind_eq) (fun h => h) hpaired
  have htrees : [(parse (returned text)).tree] =
      Tree.respellAll (fun _ => "\r\n") [(parse text).tree] :=
    (Rule.Likeness.keeps_document hinputs).trees
  exact List.singleton_inj.1 htrees

end Document

/-! Places between characters -/

namespace Token

/-- The characters of some tokens. -/
def spelled (tokens : List Token) : List Char := tokens.flatMap fun token => token.text.toList

/-- The same with carriage returns in the newlines. -/
def respelled (tokens : List Token) : List Char := tokens.flatMap fun token => token.returned.toList

/-- Tokens that are parted in two, or in the token `half` of which is in front. -/
structure Parts (tokens front : List Token) (half : List Char) (rest : List Token) : Prop where
  split : tokens = front ++ rest
  nil : rest = [] → half = []
  cons : ∀ token ∈ rest.head?, ∃ more, token.text.toList = half ++ more ∧ more ≠ []

variable {tokens front rest : List Token} {half pre post : List Char}

/-- Characters that are parted in two part the tokens. -/
theorem exists_parts (hne : ∀ token ∈ tokens, token.text ≠ "")
    (h : spelled tokens = pre ++ post) :
    ∃ front half rest, Parts tokens front half rest ∧ pre = spelled front ++ half := by
  induction tokens generalizing pre with
  | nil =>
      have hpre : pre = [] := (List.append_eq_nil_iff.1 h.symm).1
      exact ⟨[], [], [], ⟨rfl, fun _ => rfl, by simp⟩, hpre⟩
  | cons token tokens ih =>
      obtain ⟨htoken, hrest⟩ := List.forall_mem_cons.1 hne
      rw [spelled, List.flatMap_cons] at h
      have hcases : (∃ middle, pre = token.text.toList ++ middle ∧ spelled tokens = middle ++ post) ∨
          ∃ more, token.text.toList = pre ++ more ∧ more ≠ [] := by
        rcases List.append_eq_append_iff.1 h with hinner | ⟨more, htext, hpost⟩
        · exact .inl hinner
        · by_cases hmore : more = []
          · subst hmore
            exact .inl ⟨[], by rw [htext, List.append_nil, List.append_nil], hpost.symm⟩
          · exact .inr ⟨more, htext, hmore⟩
      rcases hcases with ⟨middle, hpre, hmiddle⟩ | hmore
      · obtain ⟨front, half, rest, hparts, rfl⟩ := ih hrest hmiddle
        refine ⟨token :: front, half, rest, ⟨?_, hparts.nil, hparts.cons⟩, ?_⟩
        · rw [hparts.split, List.cons_append]
        · rw [hpre, spelled, spelled, List.flatMap_cons, List.append_assoc]
      · refine ⟨[], pre, token :: tokens, ⟨rfl, by simp, ?_⟩, rfl⟩
        rintro _ ⟨⟩
        exact hmore

end Token

namespace Document

variable {text : String} {front rest : List Token} {half pre post : List Char}

theorem spelled_cutTokens (text : String) : Token.spelled (cutTokens text) = text.toList := by
  have hjoin := congrArg String.toList (join_text_cutTokens text)
  rwa [String.toList_join, List.flatMap_map] at hjoin

theorem respelled_cutTokens (text : String) :
    Token.respelled (cutTokens text) = (returned text).toList := by
  rw [returned, String.toList_join, List.flatMap_map, tokenize_eq, List.flatMap_append]
  exact (List.append_nil _).symm

/-- A newline of a text without carriage returns is a line feed. -/
theorem text_of_newline (h : '\r' ∉ text.toList) {token : Token} (hmem : token ∈ cutTokens text)
    (hkind : token.kind = .newline) : token.text = "\n" := by
  have hleaf : token.leaf ∈ Lexer.cutLeaves [] text.toList :=
    map_leaf_cutTokens text ▸ List.mem_map_of_mem hmem
  rcases Lexer.text_of_newline [] text.toList token.leaf hleaf hkind with htext | hreturn
  · exact htext
  · rw [← spelled_cutTokens text] at h
    exact absurd (List.mem_flatMap.2 ⟨token, hmem, hreturn⟩) h

theorem utf8ByteSize_respelled (h : '\r' ∉ text.toList)
    (hfront : ∀ token ∈ front, token ∈ cutTokens text) :
    (String.ofList (Token.respelled front)).utf8ByteSize =
      (String.ofList (Token.spelled front)).utf8ByteSize +
        front.countP fun token => token.kind = .newline := by
  induction front with
  | nil => rfl
  | cons token front ih =>
      obtain ⟨htoken, hrest⟩ := List.forall_mem_cons.1 hfront
      have hsize : token.returned.utf8ByteSize =
          token.text.utf8ByteSize + if token.kind = .newline then 1 else 0 := by
        unfold Token.returned
        split
        · rename_i hkind
          rw [text_of_newline h htoken hkind]
          rfl
        · rfl
      rw [Token.respelled, Token.spelled, List.flatMap_cons, List.flatMap_cons,
        Bytes.utf8ByteSize_append, Bytes.utf8ByteSize_append, List.countP_cons,
        String.ofList_toList, String.ofList_toList, hsize, ← Token.respelled, ← Token.spelled,
        ih hrest]
      simp only [decide_eq_true_eq]
      omega

theorem utf8ByteSize_spelled (tokens : List Token) :
    (String.ofList (Token.spelled tokens)).utf8ByteSize = (tokens.map Token.size).sum := by
  induction tokens with
  | nil => rfl
  | cons token tokens ih =>
      rw [Token.spelled, List.flatMap_cons, Bytes.utf8ByteSize_append, String.ofList_toList,
        ← Token.spelled, ih, List.map_cons, List.sum_cons]
      rfl

theorem stop_le_of_mem (h : cutTokens text = front ++ rest) :
    ∀ token ∈ front, token.stop ≤ (front.map Token.size).sum := by
  intro token hmem
  obtain ⟨left, right, hsplit⟩ := List.append_of_mem hmem
  have hall := contiguous_tokenize text
  rw [tokenize_eq, h, hsplit, List.append_assoc, List.append_assoc] at hall
  have hstart := hall.sum_size
  rw [hsplit, List.map_append, List.sum_append, List.map_cons, List.sum_cons, Token.stop]
  omega

/-- The newlines in front of a part of a text are those of the tokens in front of it. -/
theorem newlines_of_parts (h : Token.Parts (cutTokens text) front half rest) :
    newlines text (String.ofList (Token.spelled front ++ half)).utf8ByteSize =
      front.countP fun token => token.kind = .newline := by
  have hall := contiguous_tokenize text
  rw [tokenize_eq, h.split, List.append_assoc] at hall
  obtain ⟨-, hbehind⟩ := hall.append
  rw [Bytes.utf8ByteSize_append, utf8ByteSize_spelled]
  have hfront := stop_le_of_mem h.split
  have hrest : ∀ token ∈ rest, (front.map Token.size).sum + (String.ofList half).utf8ByteSize <
      token.stop := by
    cases hlist : rest with
    | nil => simp
    | cons first tokens =>
        obtain ⟨more, htext, hmore⟩ := h.cons first (by rw [hlist]; rfl)
        rw [hlist] at hbehind
        obtain ⟨hstart, hnext⟩ := hbehind
        have hsize : first.size =
            (String.ofList half).utf8ByteSize + (String.ofList more).utf8ByteSize := by
          rw [← Bytes.utf8ByteSize_append, ← htext, String.ofList_toList]
          rfl
        have hpos : 0 < (String.ofList more).utf8ByteSize :=
          Nat.pos_of_ne_zero fun hzero => hmore (Bytes.eq_nil_of_utf8ByteSize hzero)
        have hfirst : first.stop = first.start + first.size := rfl
        intro token hmem
        rcases List.mem_cons.1 hmem with rfl | hmem
        · omega
        · have hapart := hnext.pairwise.2 token (List.mem_append_left _ hmem)
          have hstop : token.stop = token.start + token.size := rfl
          omega
  have hsame : front.countP (fun token => token.kind = .newline && token.stop ≤
        (front.map Token.size).sum + (String.ofList half).utf8ByteSize) =
      front.countP fun token => token.kind = .newline := by
    refine List.countP_congr fun token hmem => ?_
    have hle := Nat.le_add_right_of_le (k := (String.ofList half).utf8ByteSize) (hfront token hmem)
    simp [hle]
  have hnone : rest.countP (fun token => token.kind = .newline && token.stop ≤
      (front.map Token.size).sum + (String.ofList half).utf8ByteSize) = 0 := by
    refine List.countP_eq_zero.2 fun token hmem => ?_
    simp [hrest token hmem]
  rw [newlines, tokenize_eq, h.split, List.countP_append, List.countP_append, hsame, hnone]
  rfl

/-- The characters in front of a part of a text, in the text whose newlines get carriage returns. -/
theorem respelled_of_parts (hcr : '\r' ∉ text.toList)
    (h : Token.Parts (cutTokens text) front half rest) :
    ∃ post, (returned text).toList = Token.respelled front ++ half ++ post := by
  have hrest : ∃ post, Token.respelled rest = half ++ post := by
    cases hlist : rest with
    | nil => exact ⟨[], by rw [h.nil hlist]; rfl⟩
    | cons token tokens =>
        obtain ⟨more, htext, hmore⟩ := h.cons token (by rw [hlist]; rfl)
        rw [Token.respelled, List.flatMap_cons]
        by_cases hkind : token.kind = .newline
        · have hmem : token ∈ cutTokens text := by simp [h.split, hlist]
          have hhalf : half = [] := by
            rw [text_of_newline hcr hmem hkind] at htext
            cases half with
            | nil => rfl
            | cons c half =>
                have hnil := (List.cons.inj htext).2
                exact absurd (List.append_eq_nil_iff.1 hnil.symm).2 hmore
          exact ⟨_, by rw [hhalf]; rfl⟩
        · have hsame : token.returned = token.text := if_neg hkind
          exact ⟨more ++ _, by rw [hsame, htext, List.append_assoc]⟩
  obtain ⟨post, hpost⟩ := hrest
  refine ⟨post, ?_⟩
  rw [← respelled_cutTokens, h.split, Token.respelled, List.flatMap_append, List.append_assoc,
    ← hpost]
  rfl

theorem place_of_parts (hcr : '\r' ∉ text.toList)
    (h : Token.Parts (cutTokens text) front half rest) :
    (returns text).place (String.ofList (Token.spelled front ++ half)).utf8ByteSize =
      (String.ofList (Token.respelled front ++ half)).utf8ByteSize := by
  have hfront : ∀ token ∈ front, token ∈ cutTokens text := fun token hmem =>
    h.split ▸ List.mem_append_left rest hmem
  change _ + newlines text _ = _
  rw [newlines_of_parts h, Bytes.utf8ByteSize_append, Bytes.utf8ByteSize_append,
    utf8ByteSize_respelled hcr hfront]
  omega

theorem parts_of_append (h : cutTokens text = front ++ rest) :
    Token.Parts (cutTokens text) front [] rest :=
  ⟨h, fun _ => rfl, fun token hmem => ⟨token.text.toList, rfl, by
    have hne := text_ne_empty_of_mem_cutTokens (h ▸ List.mem_append_right front
      (List.mem_of_mem_head? hmem))
    simpa using hne⟩⟩

theorem place_of_append (hcr : '\r' ∉ text.toList) (h : cutTokens text = front ++ rest) :
    (returns text).place (front.map Token.size).sum =
      (String.ofList (Token.respelled front)).utf8ByteSize := by
  have hplace := place_of_parts hcr (parts_of_append h)
  rwa [List.append_nil, List.append_nil, utf8ByteSize_spelled] at hplace

theorem place_size (hcr : '\r' ∉ text.toList) :
    (returns text).place text.utf8ByteSize = (returned text).utf8ByteSize := by
  have hplace := place_of_append hcr (List.append_nil (cutTokens text)).symm
  rwa [← utf8ByteSize_spelled, spelled_cutTokens, respelled_cutTokens, String.ofList_toList,
    String.ofList_toList] at hplace

theorem place_zero (hcr : '\r' ∉ text.toList) : (returns text).place 0 = 0 :=
  place_of_append hcr (List.nil_append (cutTokens text)).symm

/-- Each leaf of a tree is placed as it is written. -/
theorem fits_returns (hcr : '\r' ∉ text.toList) :
    (returns text).Fits 0 (parse text).tree.leaves := by
  have hfits : ∀ front rest leaves, cutTokens text = front ++ rest →
      List.Forall₂ Token.Stands rest leaves →
        (returns text).Fits (front.map Token.size).sum leaves := by
    intro front rest leaves hsplit hstands
    induction hstands generalizing front with
    | nil => trivial
    | @cons token leaf rest leaves hleaf _ ih =>
        have hnext : cutTokens text = front ++ [token] ++ rest := by
          rw [hsplit, List.append_assoc]
          rfl
        have hsum : ((front ++ [token]).map Token.size).sum =
            (front.map Token.size).sum + leaf.2.utf8ByteSize := by
          rw [List.map_append, List.sum_append, hleaf.2]
          rfl
        have hplace := place_of_append hcr hnext
        rw [hsum] at hplace
        have htext : token.returned =
            if leaf.1 = .newline then (returns text).spell leaf.2 else leaf.2 := by
          rw [Token.returned, hleaf.2]
          simp only [hleaf.1.eq_newline_iff]
          rfl
        refine ⟨?_, hsum ▸ ih (front ++ [token]) hnext⟩
        rw [hplace, place_of_append hcr hsplit, ← htext, Token.respelled, List.flatMap_append,
          Bytes.utf8ByteSize_append, List.flatMap_singleton, String.ofList_toList]
        rfl
  exact hfits [] (cutTokens text) _ rfl (forall₂_stands_leaves_parse text)

/-- The tree of a text whose newlines get carriage returns is the tree of the text, carried over. -/
theorem locus_returned (hcr : '\r' ∉ text.toList) :
    locus (returned text) = (returns text).locus (locus text) := by
  rw [locus, tree_returned hcr, locus, Relocation.locus_root,
    ← Relocation.locate_respell (fits_returns hcr), place_zero hcr]

theorem isBoundary_returned (hcr : '\r' ∉ text.toList) {offset : Nat}
    (h : Bytes.isBoundary offset text = true) :
    Bytes.isBoundary ((returns text).place offset) (returned text) = true := by
  obtain ⟨before, after, htext, rfl⟩ := Bytes.exists_of_isBoundary h
  obtain ⟨front, half, rest, hparts, rfl⟩ := Token.exists_parts
    (fun token hmem => text_ne_empty_of_mem_cutTokens hmem)
    ((spelled_cutTokens text).trans htext.symm)
  obtain ⟨post, hpost⟩ := respelled_of_parts hcr hparts
  rw [place_of_parts hcr hparts, Bytes.isBoundary, Option.isSome_iff_exists]
  exact ⟨post, Bytes.drop_eq_some_iff.2 ⟨_, rfl, hpost.symm⟩⟩

/-- Characters from the end of a token on are the same where no newline ends in them. -/
theorem slice_returned (hcr : '\r' ∉ text.toList) (hsplit : cutTokens text = front ++ rest)
    {offset : Nat} (hboundary : Bytes.isBoundary offset text = true)
    (hle : (front.map Token.size).sum ≤ offset)
    (hline : ∀ token ∈ rest, token.kind = .newline → offset < token.stop) :
    Bytes.slice (returned text) ((returns text).place (front.map Token.size).sum)
        ((returns text).place offset) =
      Bytes.slice text (front.map Token.size).sum offset := by
  obtain ⟨before, after, htext, rfl⟩ := Bytes.exists_of_isBoundary hboundary
  rw [← utf8ByteSize_spelled] at hle ⊢
  have hall : Token.spelled front ++ Token.spelled rest = before ++ after := by
    rw [htext, ← spelled_cutTokens, hsplit, Token.spelled, Token.spelled, Token.spelled,
      List.flatMap_append]
  obtain ⟨middle, rfl, hmiddle⟩ := Bytes.exists_of_append_le hall hle
  obtain ⟨between, half, last, hparts, rfl⟩ := Token.exists_parts
    (fun token hmem => text_ne_empty_of_mem_cutTokens (hsplit ▸ List.mem_append_right front hmem))
    hmiddle
  have hwhole : Token.Parts (cutTokens text) (front ++ between) half last :=
    ⟨by rw [hsplit, hparts.split, List.append_assoc], hparts.nil, hparts.cons⟩
  have hspelled : Token.spelled front ++ (Token.spelled between ++ half) =
      Token.spelled (front ++ between) ++ half := by
    rw [Token.spelled, Token.spelled, Token.spelled, List.flatMap_append, List.append_assoc]
  have hsame : Token.respelled between = Token.spelled between := by
    refine List.flatMap_congr fun token hmem => ?_
    have hkind : token.kind ≠ .newline := by
      intro hkind
      have hlt := hline token (hparts.split ▸ List.mem_append_left last hmem) hkind
      have hstop := stop_le_of_mem hwhole.split token (List.mem_append_right front hmem)
      rw [hspelled, Bytes.utf8ByteSize_append, utf8ByteSize_spelled] at hlt
      omega
    rw [Token.returned, if_neg hkind]
  have hrespelled : Token.respelled (front ++ between) ++ half =
      Token.respelled front ++ (Token.spelled between ++ half) := by
    rw [← hsame, Token.respelled, Token.respelled, Token.respelled, List.flatMap_append,
      List.append_assoc]
  obtain ⟨post, hpost⟩ := respelled_of_parts hcr hwhole
  have hplace := place_of_parts hcr hwhole
  rw [hrespelled] at hpost hplace
  rw [Bytes.slice_of_append htext, utf8ByteSize_spelled,
    place_of_append hcr hsplit, hspelled, hplace]
  exact Bytes.slice_of_append hpost.symm

/-- A newline is not in what is typed of the type of a resource. -/
def TypesOnLine (text : String) (offset : Nat) : Prop :=
  ∀ context, Context.at? (locus text) text offset = some context → context.kind = .resourceType →
    ∀ token ∈ tokenize text, token.kind = .newline →
      ¬(context.replacement.start ≤ token.start ∧ token.stop ≤ offset)

/-- The bytes in front of a token and at its end, as those of tokens. -/
theorem exists_append_of_leaf {leaf : Locus} (h : leaf ∈ (locus text).leaves) :
    (∃ front rest, cutTokens text = front ++ rest ∧
      leaf.span.start = (front.map Token.size).sum) ∧
    ∃ front rest, cutTokens text = front ++ rest ∧
      leaf.span.stop = (front.map Token.size).sum := by
  obtain ⟨token, hmem, -, -, hspan⟩ := exists_token h
  obtain ⟨front, rest, hsplit⟩ := List.append_of_mem hmem
  have hall := contiguous_tokenize text
  rw [tokenize_eq, hsplit, List.append_assoc] at hall
  have hstart := hall.sum_size
  rw [hspan]
  refine ⟨⟨front, token :: rest, hsplit, ?_⟩, front ++ [token], rest, by simp [hsplit], ?_⟩
  · change token.start = _
    omega
  · rw [List.map_append, List.sum_append, Token.span, Token.stop]
    simp only [List.map_cons, List.map_nil, List.sum_cons, List.sum_nil]
    omega

/-- What is typed of the type of a resource starts between two tokens of what is replaced, or at the
cursor. -/
theorem typedFrom_cases {finding : Context.Finding} {offset : Nat}
    (h : ((locus text).vicinity offset).finding = some finding) :
    offset ≤ finding.typedFrom ∨ finding.replacement.start ≤ finding.typedFrom ∧
      ∃ front rest, cutTokens text = front ++ rest ∧
        finding.typedFrom = (front.map Token.size).sum := by
  rcases Vicinity.exists_found h with hinside | ⟨kind, node, rfl, -⟩
  · obtain ⟨typeNode, string, opening, hunder, -, hstring, hopening, -, -, -, hspan, hfrom⟩ :=
      exists_of_insideTypeString hinside
    have hchild : string ∈ typeNode.children :=
      (List.mem_filter.1 (List.mem_of_find?_eq_some hstring)).1
    obtain ⟨hbelow, htoken⟩ := Locus.firstToken_eq_some hopening
    have hunderString := hunder.child hchild
    have hleaf := Locus.mem_leaves_iff.2 ⟨hunderString.trans hbelow, htoken⟩
    have hcontains := Span.contains_iff.1
      (hbelow.contains (hunderString.located (located_locus text)))
    have hne := start_lt_stop hleaf
    rw [← hspan, ← hfrom]
    exact .inr ⟨by omega, (exists_append_of_leaf hleaf).2⟩
  · have hfound : (((locus text).vicinity offset).found kind node).typedFrom =
          (replaced text offset).start ∧
        (((locus text).vicinity offset).found kind node).replacement = replaced text offset := by
      unfold replaced Vicinity.found
      cases ((locus text).vicinity offset).word <;> exact ⟨rfl, rfl⟩
    rw [hfound.1, hfound.2]
    rcases replaced_cases text offset with ⟨hempty, -⟩ | ⟨word, hword, -, hspan, -⟩
    · exact .inl (by rw [hempty]; exact Nat.le_refl offset)
    · rw [← hspan]
      exact .inr ⟨Nat.le_refl _, (exists_append_of_leaf hword).1⟩

/-- What is typed of the type of a resource is the same if no newline is in it. -/
theorem typed_returned (hcr : '\r' ∉ text.toList) {offset : Nat}
    (hboundary : Bytes.isBoundary offset text = true) (htypes : TypesOnLine text offset)
    {finding : Context.Finding} (h : ((locus text).vicinity offset).finding = some finding)
    (hkind : finding.kind = .resourceType)
    (hsome : (Context.at? (locus text) text offset).isSome = true) :
    (Bytes.slice (returned text) ((returns text).place (min finding.typedFrom offset))
        ((returns text).place offset)).getD "" =
      (Bytes.slice text (min finding.typedFrom offset) offset).getD "" := by
  have hempty (text : String) (offset : Nat) :
      (Bytes.slice text offset offset).getD "" = "" := by
    rw [Bytes.slice, Nat.sub_self]
    cases Bytes.drop offset text.toList <;> simp [Bytes.take]
  rcases typedFrom_cases h with hle | ⟨hstart, front, rest, hsplit, hfrom⟩
  · rw [Nat.min_eq_right hle, hempty, hempty]
  · by_cases hle : finding.typedFrom ≤ offset
    · obtain ⟨context, hcontext⟩ := Option.isSome_iff_exists.1 hsome
      obtain ⟨other, hother, hkind', -, hreplacement⟩ := exists_finding hcontext
      obtain rfl : finding = other := Option.some.inj (h.symm.trans hother)
      rw [Nat.min_eq_left hle, hfrom]
      refine congrArg (Option.getD · "") (slice_returned hcr hsplit hboundary (hfrom ▸ hle)
        fun token hmem hline => ?_)
      by_contra hstop
      refine htypes context hcontext (hkind' ▸ hkind) token ?_ hline ⟨?_, by omega⟩
      · rw [tokenize_eq, hsplit]
        simp [hmem]
      · obtain ⟨left, right, hrest⟩ := List.append_of_mem hmem
        have hall := contiguous_tokenize text
        rw [tokenize_eq, hsplit, hrest, ← List.append_assoc, List.append_assoc] at hall
        have hsum := hall.sum_size
        rw [List.map_append, List.sum_append] at hsum
        rw [← hreplacement]
        omega
    · rw [Nat.min_eq_right (by omega), hempty, hempty]

/-- Line endings do not change what is completed: with carriage returns in the newlines, the same is
suggested at the same place, and what it replaces and edits is moved with the place. -/
theorem completionsIn_returned (text : String) (offset : Nat) (types : Provider)
    (settings : Settings) (hcr : '\r' ∉ text.toList)
    (hboundary : Bytes.isBoundary offset text = true) (htypes : TypesOnLine text offset) :
    completionsIn (returned text) ((returns text).place offset) types settings =
      (completionsIn text offset types settings).map (List.map (returns text).suggestion) := by
  have hcarries : Option.Rel (returns text).Carries (Context.at? (locus text) text offset)
      (Context.at? (locus (returned text)) (returned text) ((returns text).place offset)) := by
    rw [locus_returned hcr, Context.at?, Context.at?, Relocation.resolve_locus]
    exact (returns text).carries_classify ((returns text).vicinity_locus text offset)
      fun finding hfinding hkind hsome =>
        typed_returned hcr hboundary htypes hfinding hkind hsome
  rw [completionsIn_eq types settings hboundary,
    completionsIn_eq types settings (isBoundary_returned hcr hboundary)]
  generalize Context.at? (locus text) text offset = found at hcarries
  generalize Context.at? (locus (returned text)) (returned text) ((returns text).place offset) =
    found' at hcarries
  cases hcarries with
  | none => rfl
  | @some context context' hcarries =>
      have hsuggestions := (returns text).suggestions_of_carries
        ⟨locus text, .ofRoot (locus text), types⟩ settings hcarries text.utf8ByteSize
      rw [place_size hcr] at hsuggestions
      rw [locus_returned hcr, (returns text).ofRoot_locus]
      exact congrArg Except.ok hsuggestions

theorem completionsIn_returned_secondLine :
    '\r' ∉ "var x = 1\nresource r 'M'".toList ∧
      Bytes.isBoundary 23 "var x = 1\nresource r 'M'" = true ∧
      TypesOnLine "var x = 1\nresource r 'M'" 23 ∧
      ∃ types, types.available "M" = ["M@2020-01-01"] ∧
        completionsIn (returned "var x = 1\nresource r 'M'")
            ((returns "var x = 1\nresource r 'M'").place 23) types {} =
          (completionsIn "var x = 1\nresource r 'M'" 23 types {}).map
            (List.map (returns "var x = 1\nresource r 'M'").suggestion) := by
  have hcr : '\r' ∉ "var x = 1\nresource r 'M'".toList := by decide +kernel
  have hboundary : Bytes.isBoundary 23 "var x = 1\nresource r 'M'" = true := by decide +kernel
  have hall : (Context.at? (locus "var x = 1\nresource r 'M'") "var x = 1\nresource r 'M'" 23).all
      (fun context => (tokenize "var x = 1\nresource r 'M'").all fun token =>
        token.kind ≠ .newline || token.start < context.replacement.start) = true := by
    decide +kernel
  have htypes : TypesOnLine "var x = 1\nresource r 'M'" 23 := by
    intro context hcontext _ token hmem hline hplace
    rw [hcontext, Option.all_some, List.all_eq_true] at hall
    have htoken := hall token hmem
    simp only [hline, ne_eq, not_true, decide_false, Bool.false_or, decide_eq_true_eq] at htoken
    omega
  exact ⟨hcr, hboundary, htypes,
    Catalog.provider ⟨[("M@2020-01-01", none)], List.pairwise_singleton _ _⟩, by decide +kernel,
    completionsIn_returned _ 23 _ {} hcr hboundary htypes⟩

/-- A string that is not closed has a newline as a token of its own only after an opened
interpolation, and with the newline what is typed of the type of a resource is not the same. -/
theorem exists_completionsIn_returned_ne :
    '\r' ∉ "resource r 'A$\x7b\n".toList ∧
      Bytes.isBoundary 16 "resource r 'A$\x7b\n" = true ∧
      ∃ types, completionsIn (returned "resource r 'A$\x7b\n")
          ((returns "resource r 'A$\x7b\n").place 16) types {} ≠
        (completionsIn "resource r 'A$\x7b\n" 16 types {}).map
          (List.map (returns "resource r 'A$\x7b\n").suggestion) := by
  refine ⟨by decide +kernel, by decide +kernel,
    Catalog.provider ⟨[("A$\x7b\nB@1", none)], List.pairwise_singleton _ _⟩, fun heq => ?_⟩
  have hcount := congrArg (fun answer => answer.toOption.map List.length) heq
  revert hcount
  decide +kernel

end Document

end Caret
