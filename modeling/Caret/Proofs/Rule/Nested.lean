import Caret.Proofs.Rule.Yields

/-!
# Objects and members along a path

The trees of objects that are written inside of each other, and of a chain of members that a dot
with nothing behind it ends. Both take a level for each name on the way.
-/

namespace Caret

def blank : Kind × String := (.whitespace, " ")

namespace Piece

def lBrace (lead : List (Kind × String)) : Piece := ⟨lead, .lBrace, "\x7b"⟩

def rBrace : Piece := ofLeaf (.rBrace, "\x7d")

def name (text : String) : Piece := ofLeaf (.ident, text)

def dot : Piece := ofLeaf (.dot, ".")

def endOfFile : Piece := ofLeaf (.eof, "")

@[simp]
theorem kind_lBrace (lead : List (Kind × String)) : (lBrace lead).kind = .lBrace := rfl

@[simp]
theorem kind_name (text : String) : (name text).kind = .ident := rfl

end Piece

/-- An object that has as its only property the next name of a path, and so on inside of it. -/
def nestedPieces (lead : List (Kind × String)) : List String → List Piece
  | [] => [.lBrace lead, .rBrace]
  | name :: path =>
    .lBrace lead :: .name name :: .ofLeaf (.colon, ":") :: (nestedPieces [blank] path ++ [.rBrace])

def nestedTree : List String → Tree
  | [] => .node .object [.leaf .lBrace "\x7b", .leaf .rBrace "\x7d"]
  | name :: path =>
    .node .object
      [.leaf .lBrace "\x7b",
       .node .objectProperty
        [.node .propertyKey [.leaf .ident name], .leaf .colon ":", .leaf .whitespace " ",
         nestedTree path],
       .leaf .rBrace "\x7d"]

/-- The members along a path, and a dot. -/
def memberPieces : List String → List Piece
  | [] => [.dot]
  | name :: path => .dot :: .name name :: memberPieces path

/-- A member of a tree. -/
def memberTree (receiver : Tree) (name : String) : Tree :=
  .node .propertyAccess [receiver, .leaf .dot ".", .leaf .ident name]

/-- A dot behind the members along a path, the first of them a member of the given tree. -/
def openTree (receiver : Tree) (path : List String) : Tree :=
  .node .propertyAccess [path.foldl memberTree receiver, .leaf .dot ".", .node .missing []]

namespace Rule

variable {following : Piece} {after : List Piece} {budget : Nat} {expr : Rule}

section Object

variable (hspells : ∀ input, (expr input).Spells [] input)

include hspells

theorem yields_emptyObject :
    (object expr).Yields (nestedPieces [] [] ++ after) [nestedTree []] [] after :=
  ((yields_take (by decide)).andThen (yields_listClose (progresses_property hspells) rfl
    (by decide) (by decide) (by decide))).node

theorem yields_namedObject {name : String} {path : List String}
    (hvalue : expr.Yields (nestedPieces [blank] path ++ .rBrace :: after)
      [.leaf .whitespace " ", nestedTree path] [] (.rBrace :: after)) :
    (object expr).Yields (nestedPieces [] (name :: path) ++ after) [nestedTree (name :: path)] []
      after := by
  have hkey : (propertyKey expr).Yields
      (.name name :: .ofLeaf (.colon, ":") :: (nestedPieces [blank] path ++ .rBrace :: after))
      [.node .propertyKey [.leaf .ident name]] []
      (.ofLeaf (.colon, ":") :: (nestedPieces [blank] path ++ .rBrace :: after)) :=
    ((yields_takeAs .ident (by simp)).ifAt_neg (by simp)).node
  have hproperty : (property expr).Yields
      (.name name :: .ofLeaf (.colon, ":") :: (nestedPieces [blank] path ++ .rBrace :: after))
      [.node .objectProperty [.node .propertyKey [.leaf .ident name], .leaf .colon ":",
        .leaf .whitespace " ", nestedTree path]] [] (.rBrace :: after) :=
    Yields.property (.name name) (.ofLeaf (.colon, ":")) hkey rfl hvalue (by decide)
  have hclose : (loop (listStep .rBrace startsProperty (property expr) .notAProperty)).Yields
      (.rBrace :: after) [.leaf .rBrace "\x7d"] [] after :=
    yields_listClose (progresses_property hspells) rfl (by decide) (by decide) (by decide)
  have hloop := Yields.listItem (progresses_property hspells) rfl (by simp) (by simp)
    (by simp) (by simp [closers]) (by simp) (by simp) hproperty hclose
  have hobject : (object expr).Yields (.lBrace [] :: .name name :: .ofLeaf (.colon, ":") ::
      (nestedPieces [blank] path ++ .rBrace :: after)) [nestedTree (name :: path)] [] after :=
    ((yields_take (by simp)).andThen hloop).node
  have hpieces : nestedPieces [] (name :: path) ++ after = .lBrace [] :: .name name ::
      .ofLeaf (.colon, ":") :: (nestedPieces [blank] path ++ .rBrace :: after) := by
    simp [nestedPieces]
  rwa [hpieces]

end Object

theorem Yields.nested {path : List String}
    (h : (object (level budget).expr).Yields (nestedPieces [] path ++ following :: after)
      [nestedTree path] [] (following :: after))
    (hfollowing : Level.goesOn following.kind = false) (lead : List (Kind × String)) :
    (level (budget + 1)).expr.Yields (nestedPieces lead path ++ following :: after)
      ((Piece.lBrace lead).trivia ++ [nestedTree path]) [] (following :: after) := by
  obtain ⟨rest, hrest⟩ : ∃ rest, ∀ lead, nestedPieces lead path = .lBrace lead :: rest := by
    cases path <;> exact ⟨_, fun _ => rfl⟩
  rw [hrest] at h ⊢
  exact Yields.expr_of_primary (h.congr fun input hinput =>
    (Primary.object (kind_of_piece hinput)).eq) (by simp) (by simp) hfollowing

/-- Objects inside of each other are read with a level for each of them. -/
theorem yields_nested {path : List String} (hbudget : path.length < budget)
    (hfollowing : Level.goesOn following.kind = false) (lead : List (Kind × String)) :
    (level budget).expr.Yields (nestedPieces lead path ++ following :: after)
      ((Piece.lBrace lead).trivia ++ [nestedTree path]) [] (following :: after) := by
  induction path generalizing budget following after lead with
  | nil =>
      obtain ⟨budget, rfl⟩ : ∃ below, budget = below + 1 := ⟨budget - 1, by omega⟩
      exact (yields_emptyObject (spells_level budget).expr).nested hfollowing lead
  | cons name path ih =>
      obtain ⟨budget, rfl⟩ : ∃ below, budget = below + 1 := ⟨budget - 1, by omega⟩
      have hvalue : (level budget).expr.Yields (nestedPieces [blank] path ++ .rBrace :: following :: after)
          [.leaf .whitespace " ", nestedTree path] [] (.rBrace :: following :: after) :=
        ih (Nat.lt_of_succ_lt_succ hbudget) (by decide) [blank]
      exact (yields_namedObject (spells_level budget).expr hvalue).nested hfollowing lead

/-! Members -/

theorem Level.link_of_dot {below : Level} {left : List Tree} {input : List Lexeme}
    (h : Rule.kind input = .dot) :
    below.link left input = wrap .propertyAccess left (take ++ member) input := by
  unfold link
  simp only [h]

/-- A link that starts with a dot is read with the level below. -/
theorem Yields.links_of_dot {before between : List Piece} {trees trees' left : List Tree}
    {causes causes' : List SyntaxError.Cause}
    (hmember : Level.member.Yields before trees causes between)
    (hlinks : ((level budget).links [.node .propertyAccess (left ++ .leaf .dot "." :: trees)]).Yields
      between trees' causes' after) :
    ((level (budget + 1)).links left).Yields (.dot :: before) trees' (causes ++ causes') after := by
  have hlink : (Rule.wrap .propertyAccess left (take ++ Level.member)).Yields (.dot :: before)
      [.node .propertyAccess (left ++ .leaf .dot "." :: trees)] causes between :=
    ((yields_take (by decide)).andThen hmember).wrap _ _
  refine (hlink.into hlinks).congr fun input hinput => ?_
  change (Level.above (some (level budget))).links left input = _
  rw [Level.links_above, kind_of_piece hinput, if_pos (by decide)]
  simp only [into_apply, Level.link_of_dot (kind_of_piece hinput)]

theorem yields_member (name : String) :
    Level.member.Yields (.name name :: after) [.leaf .ident name] [] after :=
  (yields_takeAs .ident (by simp)).congr fun input hinput => by
    rw [Level.member, kind_of_piece hinput]
    rfl

theorem yields_absentMember :
    Level.member.Yields [.endOfFile] [.node .missing []] [.absent .propertyName .eof]
      [.endOfFile] :=
  (yields_absent .propertyName).congr fun input hinput => by
    rw [Level.member, kind_of_piece hinput]
    rfl

/-- A chain of members takes a level for each dot. -/
theorem yields_members {path : List String} {receiver : Tree} (hbudget : path.length < budget) :
    ((level budget).links [receiver]).Yields (memberPieces path ++ [.endOfFile])
      [openTree receiver path] [.absent .propertyName .eof] [.endOfFile] := by
  induction path generalizing budget receiver with
  | nil =>
      obtain ⟨budget, rfl⟩ : ∃ below, budget = below + 1 := ⟨budget - 1, by omega⟩
      have hlinks : ((level budget).links [openTree receiver []]).Yields [.endOfFile]
          [openTree receiver []] [] [.endOfFile] := by
        obtain ⟨below, hbelow⟩ := exists_level_eq_above budget
        rw [hbelow]
        exact Level.yields_links_keep (by decide)
      exact yields_absentMember.links_of_dot hlinks
  | cons name path ih =>
      obtain ⟨budget, rfl⟩ : ∃ below, budget = below + 1 := ⟨budget - 1, by omega⟩
      exact (yields_member name).links_of_dot (ih (Nat.lt_of_succ_lt_succ hbudget))

end Rule

end Caret
