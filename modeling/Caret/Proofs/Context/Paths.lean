import Caret.Proofs.Context.Members
import Caret.Proofs.Document.Paths
import Caret.Proofs.Document.Views
import Caret.Proofs.Scope.Carried
import Caret.Proofs.Tree.Last
import Caret.Session

/-!
# Keys and members along a path

A resource is declared with an object that has, along a path, objects in objects; the keys that are
offered in the innermost one are found by going up from it. A member is taken, along the same path,
of a resource; the members that are offered at the end are found by going down the chain. Both find
the shape at the end of the path, the one from the body of the resource, the other from a reference
to it.
-/

namespace Caret

namespace Locus

variable {locus declaration : Locus} {id name : String} {path : List String} {start : Nat}
  {steps : List Shape.Step} {body : Tree}

theorem propertyName_of_element {trees : List Tree}
    (h : locus.element = (Tree.node .objectProperty
      (.node .propertyKey [.leaf .ident name] :: trees)).locate start) :
    locus.propertyName = some name := by
  have hkey := map_element_nodeOf locus .propertyKey
  rw [h] at hkey
  obtain ⟨key, hfound, helement⟩ := Option.map_eq_some_iff.1 hkey
  have hident : key.identText = some name := identText_of_element helement
  simp [propertyName, keyNode, hfound, keyText, hident]

theorem utf8ByteSize_opened_cons (name : String) (path : List String) :
    (Path.opened (name :: path)).utf8ByteSize =
      1 + name.utf8ByteSize + 2 + (Path.opened path).utf8ByteSize := by
  have hbrace : "\x7b".utf8ByteSize = 1 := by decide
  have hcolon : ": ".utf8ByteSize = 2 := by decide
  rw [Path.opened, String.utf8ByteSize_append, String.utf8ByteSize_append,
    String.utf8ByteSize_append, hbrace, hcolon]

/-- The innermost of the objects along a path, with the steps on the way to it. -/
theorem exists_innermost (h : locus.element = (nestedTree path).locate start)
    (hway : declaration.Reaches locus steps) :
    ∃ object stop, Under locus object ∧ object.element = (nestedTree []).locate stop ∧
      stop + 1 = start + (Path.opened path).utf8ByteSize ∧
      declaration.Reaches object (steps ++ path.map .member) ∧
      ∀ ancestor ∈ object.ancestors, ancestor ∈ locus.properAncestors ∨
        ancestor.kind = .object ∨ ancestor.kind = .objectProperty := by
  induction path generalizing locus start steps with
  | nil =>
      refine ⟨locus, start, .root, h, rfl, by simpa using hway, fun ancestor hmem => ?_⟩
      rw [ancestors_eq_cons, List.mem_cons] at hmem
      rcases hmem with rfl | hmem
      · exact .inr (.inl (kind_of_element h))
      · exact .inl hmem
  | cons name path ih =>
      obtain ⟨property, hproperty, hpropertyElement, -⟩ :=
        exists_child_of_split [.leaf .lBrace "\x7b"] h
      obtain ⟨value, hvalue, hvalueElement, -⟩ := exists_child_of_split
        [.node .propertyKey [.leaf .ident name], .leaf .colon ":", .leaf .whitespace " "]
        hpropertyElement
      have hkind : property.kind = .objectProperty := kind_of_element hpropertyElement
      obtain ⟨object, stop, hunder, helement, hstop, hreaches, hancestors⟩ := ih hvalueElement
        (hway.value hproperty hkind (propertyName_of_element hpropertyElement) hvalue)
      refine ⟨object, stop, ?_, helement, ?_, by simpa using hreaches, fun ancestor hmem => ?_⟩
      · exact (Under.root.child hproperty |>.child hvalue).trans hunder
      · have hbrace : "\x7b".utf8ByteSize = 1 := by decide
        have hcolon : ":".utf8ByteSize = 1 := by decide
        have hspace : " ".utf8ByteSize = 1 := by decide
        rw [utf8ByteSize_opened_cons, hstop]
        simp only [Tree.sizeAll, Tree.size, hbrace, hcolon, hspace]
        omega
      · rcases hancestors ancestor hmem with hmem | hkind
        · rw [properAncestors_of_mem_children hvalue, ancestors_of_mem_children hproperty,
            List.mem_cons, ancestors_eq_cons, List.mem_cons] at hmem
          rcases hmem with rfl | rfl | hmem
          · exact .inr (.inr hkind)
          · exact .inr (.inl (kind_of_element h))
          · exact .inl hmem
        · exact .inr hkind

/-! The resource -/

theorem size_typeTree (id : String) : (Path.typeTree id).size = (quote id).utf8ByteSize := by
  have hmark : "\x27".utf8ByteSize = 1 := by decide
  have hquote : quote id = "\x27" ++ Quoted.body id ++ "\x27" := by
    rw [← String.toList_inj, Quoted.toList_quote]
    simp
  rw [hquote, String.utf8ByteSize_append, String.utf8ByteSize_append, hmark]
  simp only [Path.typeTree, Tree.size, Tree.sizeAll, Tree.sizeAll_append,
    Tree.sizeAll_ofLeaf_textLeaves, hmark]
  omega

/-- The body of a resource stands right behind its header. -/
theorem exists_body (h : declaration.element = (Path.resourceTree id body).locate start) :
    ∃ value ∈ declaration.children,
      value.element = body.locate (start + (Path.header id).utf8ByteSize) := by
  obtain ⟨value, hvalue, helement, -⟩ := exists_child_of_split
    [.leaf .resourceKw "resource", .leaf .whitespace " ", .node .name [.leaf .ident "st"],
      .leaf .whitespace " ", Path.typeTree id, .leaf .whitespace " ", .leaf .eq "=",
      .leaf .whitespace " "] h
  refine ⟨value, hvalue, ?_⟩
  have hkeyword : "resource".utf8ByteSize = 8 := by decide
  have hspace : " ".utf8ByteSize = 1 := by decide
  have hname : "st".utf8ByteSize = 2 := by decide
  have heq : "=".utf8ByteSize = 1 := by decide
  have hfront : "resource st ".utf8ByteSize = 12 := by decide
  have hback : " = ".utf8ByteSize = 3 := by decide
  have hsize : (Path.header id).utf8ByteSize = 15 + (Path.typeTree id).size := by
    rw [Path.header, String.utf8ByteSize_append, String.utf8ByteSize_append, hfront, hback,
      size_typeTree]
    omega
  rw [helement, hsize]
  simp only [Tree.sizeAll, Tree.size, hkeyword, hspace, hname, heq]
  refine congrArg body.locate ?_
  omega

theorem kind_resource (h : declaration.element = (Path.resourceTree id body).locate start) :
    declaration.kind = .resourceDecl := kind_of_element h

theorem bodyShape_resource (typing : Typing)
    (h : declaration.element = (Path.resourceTree id body).locate start) :
    typing.bodyShape declaration = (typing.types.lookup id).toOption := by
  have htype := map_element_nodeOf declaration .resourceType
  rw [h] at htype
  obtain ⟨typeNode, hfound, helement⟩ := Option.map_eq_some_iff.1 htype
  have hvalue : typeNode.quotedValue = some (unescape (Quoted.body id)) :=
    quotedValue_of_element helement
  rw [unescape_body] at hvalue
  simp [Typing.bodyShape, kind_resource h, resourceTypeNode, hfound, hvalue]

/-- What a resource is referred to by. -/
theorem declaredSymbol_resource
    (h : declaration.element = (Path.resourceTree id body).locate start) :
    ∃ symbol, declaration.declaredSymbol = some symbol ∧ symbol.name = "st" ∧
      symbol.kind = .resource ∧ symbol.declaration = declaration.ref := by
  have hname := map_element_nodeOf declaration .name
  rw [h] at hname
  obtain ⟨nameNode, hfound, helement⟩ := Option.map_eq_some_iff.1 hname
  have hident : nameNode.identText = some "st" := identText_of_element helement
  obtain ⟨ident, hident, htext⟩ := Option.map_eq_some_iff.1 hident
  refine ⟨⟨ident.text, .resource, declaration.ref, ident.span,
    declaration.resourceTypeNode.bind quotedValue⟩, ?_, htext, rfl, rfl⟩
  simp [declaredSymbol, symbolKind, kind_resource h, Locus.nameNode, hfound, hident]

/-! Chains of members -/

theorem exists_receiverTree (path : List String) :
    ∃ kind trees, path.foldl memberTree Path.receiverTree = .node kind trees ∧
      (kind = .variableAccess ∨ kind = .propertyAccess) := by
  rcases List.eq_nil_or_concat' path with rfl | ⟨path, name, rfl⟩
  · exact ⟨_, _, rfl, .inl rfl⟩
  · rw [List.foldl_concat]
    exact ⟨_, _, rfl, .inr rfl⟩

theorem operand_of_element {kind inner : Kind} {trees parts : List Tree}
    (h : locus.element = (Tree.node kind (.node inner parts :: trees)).locate start)
    (hexpr : inner.isExpr = true) :
    ∃ operand ∈ locus.children, locus.operand = some operand ∧
      operand.element = (Tree.node inner parts).locate start := by
  have hnodes := map_element_nodes locus
  rw [h] at hnodes
  obtain ⟨operand, nodes, hsplit, helement, -⟩ := List.map_eq_cons_iff.1 hnodes
  have hkind : operand.kind = inner := kind_of_element helement
  refine ⟨operand, (List.mem_filter.1 (hsplit ▸ List.mem_cons_self : operand ∈ locus.nodes)).1, ?_,
    helement⟩
  simp [Locus.operand, hsplit, Option.filter, hkind, hexpr]

theorem member_of_element {receiver : Tree} (hkind : receiver.kind ≠ .dot)
    (h : locus.element = (memberTree receiver name).locate start) :
    ∃ member, locus.member = some member ∧ member.text = name := by
  have hmember : locus.member.map element = ((locus.element.children.dropWhile fun child =>
      child.kind ≠ .dot).filter Element.isToken).find? fun token => token.kind = .ident := by
    rw [← map_element_children, List.dropWhile_map, List.filter_map, List.find?_map]
    rfl
  have hreceiver : (receiver.locate start).kind ≠ .dot := by
    rwa [Tree.kind_locate]
  rw [h] at hmember
  simp only [memberTree, Tree.locate, Tree.locateAll, Element.children] at hmember
  rw [List.dropWhile_cons_of_pos (by simpa using hreceiver)] at hmember
  obtain ⟨token, htoken, helement⟩ := Option.map_eq_some_iff.1 hmember
  refine ⟨token, htoken, ?_⟩
  rw [Locus.text, helement]
  rfl

/-- The first of the values along a chain of members, with the shape that the chain has from it. -/
theorem exists_receiver
    (h : locus.element = (path.foldl memberTree Path.receiverTree).locate start) :
    ∃ receiver, Under locus receiver ∧ receiver.element = Path.receiverTree.locate start ∧
      (∀ ancestor ∈ receiver.ancestors, ancestor ∈ locus.properAncestors ∨
        ancestor.kind = .variableAccess ∨ ancestor.kind = .propertyAccess) ∧
      ∀ typing : Typing, typing.valueShape locus =
        (typing.valueShape receiver).bind fun shape => shape.follow (path.map .member) := by
  induction path using List.reverseRecOn generalizing locus with
  | nil =>
      refine ⟨locus, .root, h, fun ancestor hmem => ?_, fun typing => ?_⟩
      · rw [ancestors_eq_cons, List.mem_cons] at hmem
        rcases hmem with rfl | hmem
        · exact .inr (.inl (kind_of_element h))
        · exact .inl hmem
      · cases typing.valueShape locus <;> rfl
  | append_singleton path name ih =>
      rw [List.foldl_concat] at h
      have hkind : locus.kind = .propertyAccess := kind_of_element h
      obtain ⟨inner, parts, htree, hinner⟩ := exists_receiverTree path
      have hnotDot : (path.foldl memberTree Path.receiverTree).kind ≠ .dot := by
        rcases hinner with rfl | rfl <;> simp [htree, Tree.kind]
      obtain ⟨member, hmember, htext⟩ : ∃ member, locus.member = some member ∧ member.text = name :=
        member_of_element hnotDot h
      rw [htree] at h
      obtain ⟨operand, hchild, hoperand, helement⟩ :=
        operand_of_element h (by rcases hinner with rfl | rfl <;> rfl)
      rw [← htree] at helement
      obtain ⟨receiver, hunder, hreceiver, hancestors, hshape⟩ := ih helement
      refine ⟨receiver, (Under.root.child hchild).trans hunder, hreceiver,
        fun ancestor hmem => ?_, fun typing => ?_⟩
      · rcases hancestors ancestor hmem with hmem | hother
        · rw [properAncestors_of_mem_children hchild, ancestors_eq_cons, List.mem_cons] at hmem
          rcases hmem with rfl | hmem
          · exact .inr (.inr hkind)
          · exact .inl hmem
        · exact .inr hother
      · rw [typing.valueShape_propertyAccess hkind, hoperand, hmember, Option.bind_some,
          Option.bind_some, hshape, htext, List.map_append, Option.bind_assoc]
        refine congrArg _ (funext fun shape => ?_)
        exact (shape.follow_concat (path.map .member) (.member name)).symm

end Locus

namespace Document

variable {text id : String} {path : List String} {object access declaration : Locus}
  {start : Nat} {types : Provider} {body : Shape}

/-! Where the cursor is -/

/-- Between the braces of an object without keys its keys can be completed. -/
theorem context_of_object (hunder : Locus.Under (locus text) object)
    (h : object.element = (nestedTree []).locate start)
    (hancestors : ∀ ancestor ∈ object.ancestors,
      ancestor.kind ≠ .string ∧ ancestor.kind ≠ .resourceType) :
    ∃ context, Context.at? (locus text) text (start + 1) = some context ∧
      context.kind = .propertyKey ∧ context.node = object := by
  obtain ⟨opening, hopening, hopeningElement, -⟩ := Locus.exists_child_of_split [] h
  obtain ⟨closing, hclosing, hclosingElement, -⟩ :=
    Locus.exists_child_of_split [.leaf .lBrace "\x7b"] h
  have hspan : opening.span = ⟨start, start + 1⟩ := Locus.span_of_element hopeningElement
  have hspan' : closing.span = ⟨start + 1, start + 1 + 1⟩ := Locus.span_of_element hclosingElement
  have hkind : opening.kind = .lBrace := Locus.kind_of_element hopeningElement
  have hleaf : opening ∈ (locus text).leaves := Locus.mem_leaves_iff.2
    ⟨hunder.child hopening, (Locus.isToken_of_element hopeningElement).1⟩
  have hleaf' : closing ∈ (locus text).leaves := Locus.mem_leaves_iff.2
    ⟨hunder.child hclosing, (Locus.isToken_of_element hclosingElement).1⟩
  have hstart : opening.span.start < start + 1 := by
    rw [hspan]
    exact Nat.lt_succ_self start
  have hstop : start + 1 ≤ opening.span.stop := by rw [hspan]
  have htype : ∀ token ∈ (locus text).tokensAt (start + 1),
      ∀ ancestor ∈ token.properAncestors, ancestor.kind ≠ .resourceType := by
    intro token htoken ancestor hancestor
    obtain ⟨hmem, hbefore, hend⟩ := mem_tokensAt_iff.1 htoken
    have hne := start_lt_stop hmem
    have hparent : token ∈ object.children := by
      by_cases hlt : token.span.start < start + 1
      · rwa [eq_of_start_lt hmem hleaf hlt hend hstart hstop]
      · have hin : token.span.start < start + 2 := by omega
        have hclosing : closing.span.start < start + 2 := by
          rw [hspan']
          exact Nat.lt_succ_self _
        rwa [eq_of_start_lt hmem hleaf' hin (by omega) hclosing (by rw [hspan'])]
    rw [Locus.properAncestors_of_mem_children hparent] at hancestor
    exact (hancestors ancestor hancestor).2
  have hfinding : Vicinity.finding ⟨locus text, start + 1, none, some opening, some opening⟩ =
      some (Vicinity.found _ .propertyKey object) :=
    Vicinity.finding_of_lBrace rfl rfl hkind (Locus.parent_of_mem_children hopening)
      (Locus.kind_of_element h) htype
  refine exists_context_of_leaf hleaf hstart hstop (.inl hkind) (fun ancestor hmem => ?_) hfinding
  rw [Locus.properAncestors_of_mem_children hopening] at hmem
  exact (hancestors ancestor hmem).1

/-- At the end of a text that ends with a dot and no name, members can be completed. -/
theorem context_of_access {receiver : Tree} (hunder : Locus.Under (locus text) access)
    (h : access.element = (Tree.node .propertyAccess
      [receiver, .leaf .dot ".", .node .missing []]).locate start)
    (hend : access.span.stop = text.utf8ByteSize)
    (hancestors : ∀ ancestor ∈ access.ancestors,
      ancestor.kind ≠ .string ∧ ancestor.kind ≠ .resourceType) :
    ∃ context, Context.at? (locus text) text text.utf8ByteSize = some context ∧
      context.kind = .memberAccess ∧ context.node = access := by
  obtain ⟨dot, hdot, hdotElement, -⟩ := Locus.exists_child_of_split [receiver] h
  have hsize : ".".utf8ByteSize = 1 := by decide
  have hdotStop : dot.span.stop = text.utf8ByteSize := by
    rw [← hend, Locus.span_of_element h, Locus.span_of_element hdotElement]
    simp [Tree.size, Tree.sizeAll]
    omega
  have hkind : dot.kind = .dot := Locus.kind_of_element hdotElement
  have hleaf : dot ∈ (locus text).leaves := Locus.mem_leaves_iff.2
    ⟨hunder.child hdot, (Locus.isToken_of_element hdotElement).1⟩
  have hstart : dot.span.start < text.utf8ByteSize := hdotStop ▸ start_lt_stop hleaf
  have hstop : text.utf8ByteSize ≤ dot.span.stop := hdotStop.ge
  have htype : ∀ token ∈ (locus text).tokensAt text.utf8ByteSize,
      ∀ ancestor ∈ token.properAncestors, ancestor.kind ≠ .resourceType := by
    intro token htoken ancestor hancestor
    obtain ⟨hmem, -, hlast⟩ := mem_tokensAt_iff.1 htoken
    have hne := start_lt_stop hmem
    have hinside : token.span.stop ≤ text.utf8ByteSize := by
      have hcontains := (Locus.mem_leaves_iff.1 hmem).1.contains (located_locus text)
      rw [span_locus] at hcontains
      exact (Span.contains_iff.1 hcontains).2
    have heq : token = dot := eq_of_start_lt hmem hleaf (by omega) hlast hstart hstop
    rw [heq, Locus.properAncestors_of_mem_children hdot] at hancestor
    exact (hancestors ancestor hancestor).2
  have hfinding : Vicinity.finding ⟨locus text, text.utf8ByteSize, none, some dot, some dot⟩ =
      some (Vicinity.found _ .memberAccess access) :=
    Vicinity.finding_of_dot rfl rfl hkind (Locus.parent_of_mem_children hdot)
      (Locus.kind_of_element h) htype
  refine exists_context_of_leaf hleaf hstart hstop (.inr hkind) (fun ancestor hmem => ?_) hfinding
  rw [Locus.properAncestors_of_mem_children hdot] at hmem
  exact (hancestors ancestor hmem).1

theorem isBoundary_append (left right : String) :
    Bytes.isBoundary left.utf8ByteSize (left ++ right) = true := by
  have hdrop : Bytes.drop left.utf8ByteSize (left ++ right).toList = some right.toList :=
    Bytes.drop_eq_some_iff.2 ⟨left.toList, by rw [String.ofList_toList], by simp⟩
  rw [Bytes.isBoundary, hdrop]
  rfl

/-! Both ways to the shape -/

/-- In the text of the keys along a path, the innermost object is in the body of a resource. -/
theorem exists_object (hpath : ∀ name ∈ path, Identifier.isValid name = true)
    (hlength : path.length ≤ 100) (htext : Path.keysText id path = text) :
    ∃ (declaration object : Locus) (start stop : Nat),
      declaration.element = (Path.resourceTree id (nestedTree path)).locate start ∧
      Locus.Under (locus text) object ∧ object.element = (nestedTree []).locate stop ∧
      (Path.keysBefore id path).utf8ByteSize = stop + 1 ∧
      declaration.Reaches object (path.map .member) ∧
      ∀ ancestor ∈ object.ancestors, ancestor.kind ≠ .string ∧ ancestor.kind ≠ .resourceType := by
  have hroot : (locus text).element =
      (Tree.node .root [Path.resourceTree id (nestedTree path)]).locate 0 := by
    rw [← parse_keysText id hpath hlength, htext]
    rfl
  obtain ⟨declaration, hdeclaration, hresource, -⟩ := Locus.exists_child_of_split [] hroot
  obtain ⟨value, hvalue, hvalueElement⟩ := Locus.exists_body hresource
  obtain ⟨object, start, hunder, hobject, hstart, hway, hancestors⟩ :=
    Locus.exists_innermost hvalueElement (.body hvalue)
  refine ⟨declaration, object, _, start, hresource,
    (Locus.Under.root.child hdeclaration |>.child hvalue).trans hunder, hobject, ?_, hway,
    fun ancestor hmem => ?_⟩
  · rw [Path.keysBefore, String.utf8ByteSize_append, hstart]
    simp [Tree.sizeAll]
  · rcases hancestors ancestor hmem with hmem | hkind | hkind
    · rw [Locus.properAncestors_of_mem_children hvalue,
        Locus.ancestors_of_mem_children hdeclaration, Locus.ancestors_of_isRoot (isRoot_locus text),
        List.mem_cons, List.mem_singleton] at hmem
      rcases hmem with rfl | rfl
      · rw [Locus.kind_resource hresource]
        decide
      · rw [kind_locus]
        decide
    · rw [hkind]
      decide
    · rw [hkind]
      decide

/-- In the innermost object along a path, the keys of the shape that the path leads to from the body
of the resource are offered. -/
theorem exists_keys (hpath : ∀ name ∈ path, Identifier.isValid name = true)
    (hlength : path.length ≤ 100) (hlookup : types.lookup id = .ok body)
    (hmembers : ∀ shape, types.membersOf shape = shape.members) (settings : Settings) :
    ∃ completion size, completionsIn (Path.keysText id path) (Path.keysBefore id path).utf8ByteSize
        types settings = .ok (Completion.suggestions completion size) ∧
      ∀ label, (∃ suggestion ∈ completion.suggestions size, suggestion.label = label) ↔
        body.Leads path label := by
  generalize htext : Path.keysText id path = text
  obtain ⟨declaration, object, _, start, hresource, hunder, hobject, hoffset, hway, hkinds⟩ :=
    exists_object hpath hlength htext
  obtain ⟨context, hcontext, hkind, rfl⟩ := context_of_object hunder hobject hkinds
  have hboundary : Bytes.isBoundary (start + 1) text = true := by
    rw [← hoffset, ← htext]
    exact isBoundary_append _ _
  have hobjectKind : context.node.kind = .object := Locus.kind_of_element hobject
  have hpresent : Completion.presentKeys context.node context.replacement = [] := by
    have hnodes : context.node.nodes = [] := by
      have helements := Locus.map_element_nodes context.node
      rw [hobject] at helements
      exact List.map_eq_nil_iff.1 helements
    simp [Completion.presentKeys, Locus.properties, hnodes]
  refine ⟨_, _, by rw [hoffset]; exact completionsIn_eq_ok types settings hboundary hcontext,
    fun label => ?_⟩
  have hbodyShape : Typing.bodyShape ⟨locus text, .ofRoot (locus text), types⟩ declaration =
      some body := by
    rw [Locus.bodyShape_resource _ hresource]
    exact congrArg Except.toOption hlookup
  have hexpected : Typing.expected ⟨locus text, .ofRoot (locus text), types⟩ context.node = _ :=
    Typing.expected_of_reaches (by rw [Locus.kind_resource hresource]; rfl) hway
  rw [Completion.exists_key_iff label hkind hobjectKind, hexpected, hbodyShape, hpresent]
  simp [Shape.Leads, hmembers]

/-- A name in the output below a resource without a body, the only two declarations of a text. -/
structure Refers (text id : String) (declaration line output receiver : Locus) : Prop where
  children : (locus text).children = [declaration, line, output]
  resource : ∃ start, declaration.element = (Path.resourceTree id (nestedTree [])).locate start
  isToken_line : line.isToken = true
  isNode_output : output.isNode = true
  kind_output : output.kind = .outputDecl
  under : Locus.Under output receiver
  not_loop : ∀ ancestor ∈ receiver.ancestors, ancestor.kind ≠ .forExpr
  receiver : ∃ stop, receiver.element = Path.receiverTree.locate stop

namespace Refers

variable {line output receiver : Locus} {symbol : Symbol}
  (h : Refers text id declaration line output receiver)

include h

theorem mem_declaration : declaration ∈ (locus text).children := by simp [h.children]

theorem mem_output : output ∈ (locus text).children := by simp [h.children]

theorem kind_declaration : declaration.kind = .resourceDecl := by
  obtain ⟨start, hresource⟩ := h.resource
  exact Locus.kind_resource hresource

theorem isNode_declaration : declaration.isNode = true := by
  obtain ⟨start, hresource⟩ := h.resource
  exact (Locus.isNode_of_element hresource).1

theorem isNode_receiver : receiver.isNode = true := by
  obtain ⟨stop, hreceiver⟩ := h.receiver
  exact (Locus.isNode_of_element hreceiver).1

theorem under_locus : Locus.Under (locus text) receiver :=
  (Locus.Under.root.child h.mem_output).trans h.under

theorem declarations : (locus text).declarations = [declaration, output] := by
  have hline : line.isNode = false := by
    rw [Locus.isNode_eq_not, h.isToken_line]
    rfl
  simp [Locus.declarations, Locus.nodes, h.children, h.isNode_declaration, hline, h.isNode_output,
    h.kind_output, h.kind_declaration, Kind.isDeclaration]

/-- The resource is not around the name. -/
theorem mem_otherDeclarations : declaration ∈ Locus.otherDeclarations (locus text) receiver := by
  rw [mem_otherDeclarations_iff h.under_locus h.isNode_receiver (by simp [h.declarations])]
  intro hbelow
  have heq : declaration = output := hbelow.eq_of_length h.under (by
    rw [(Locus.mem_children_iff.1 h.mem_declaration).2, (Locus.mem_children_iff.1 h.mem_output).2])
  have hkind := h.kind_declaration
  rw [heq, h.kind_output] at hkind
  cases hkind

theorem knownLoops : receiver.knownLoops = [] := by
  refine List.filter_eq_nil_iff.2 fun loop hmem => ?_
  have hloop : loop.kind ≠ .forExpr :=
    h.not_loop loop (by rw [Locus.ancestors_eq_cons]; exact List.mem_cons_of_mem _ hmem)
  simp [Locus.isInBodyOf, hloop]

/-- Only the resource introduces a name. -/
theorem eq_of_mem_knownSymbols (hsymbol : declaration.declaredSymbol = some symbol) {known : Symbol}
    (hmem : known ∈ Locus.knownSymbols (locus text) receiver) : known = symbol := by
  have hmem := (distinctBy_sublist _ _).subset hmem
  rw [h.knownLoops, List.filterMap_nil, List.nil_append] at hmem
  obtain ⟨introduces, hin, hintroduces⟩ := List.mem_filterMap.1 hmem
  have hin := (List.mem_filter.1 hin).1
  rw [h.declarations, List.mem_cons, List.mem_singleton] at hin
  rcases hin with rfl | rfl
  · rw [hsymbol] at hintroduces
    exact (Option.some.inj hintroduces).symm
  · simp [Locus.declaredSymbol, Locus.symbolKind, h.kind_output] at hintroduces

theorem find?_visibleFrom (hsymbol : declaration.declaredSymbol = some symbol)
    (hname : symbol.name = "st") :
    ((ScopeTable.ofRoot (locus text)).visibleFrom receiver).find?
      (fun known => known.name = "st") = some symbol := by
  rw [ScopeTable.visibleFrom_ofRoot (mem_descendants_iff.2 ⟨h.under_locus, h.isNode_receiver⟩)]
  obtain ⟨first, hfirst, -⟩ : ∃ first ∈ Locus.knownSymbols (locus text) receiver,
      first.name = symbol.name :=
    exists_mem_distinctBy (List.mem_append_right _
      (List.mem_filterMap.2 ⟨declaration, h.mem_otherDeclarations, hsymbol⟩))
  obtain rfl := h.eq_of_mem_knownSymbols hsymbol hfirst
  exact find?_eq_some_of_unique hfirst (by simp [hname]) fun known hmem _ =>
    h.eq_of_mem_knownSymbols hsymbol hmem

theorem find?_declaration : (locus text).find? declaration.ref = some declaration := by
  have hunder : Locus.Under (locus text) declaration := .child .root h.mem_declaration
  have hkind : declaration.kind.isDeclaration = true := by
    rw [h.kind_declaration]
    rfl
  refine find?_eq_some_of_unique (mem_descendants_iff.2 ⟨hunder, h.isNode_declaration⟩) (by simp)
    fun node hmem href => ?_
  obtain ⟨hnode, hisNode⟩ := mem_descendants_iff.1 hmem
  exact (eq_of_ref_eq hunder h.isNode_declaration hnode hisNode (.inr hkind)
    (of_decide_eq_true href).symm).symm

/-- The name stands for the resource. -/
theorem valueShape (hlookup : types.lookup id = .ok body) :
    Typing.valueShape ⟨locus text, .ofRoot (locus text), types⟩ receiver =
      some (.ofResource body) := by
  obtain ⟨start, hresource⟩ := h.resource
  obtain ⟨stop, hreceiver⟩ := h.receiver
  obtain ⟨symbol, hsymbol, hname, hkind, href⟩ := Locus.declaredSymbol_resource hresource
  have hident : receiver.identText = some "st" := Locus.identText_of_element hreceiver
  have hbody := Locus.bodyShape_resource ⟨locus text, .ofRoot (locus text), types⟩ hresource
  rw [Typing.valueShape_variable _ (Locus.kind_of_element hreceiver), hident, Option.bind_some,
    h.find?_visibleFrom hsymbol hname, Option.bind_some]
  simp [Typing.symbolShape, href, h.find?_declaration, hkind, hbody, hlookup, Except.toOption]

end Refers

/-- In the text of the members along a path, the chain of them is the value of an output below the
resource and goes up to the end of the text. -/
theorem exists_access (hpath : ∀ name ∈ path, Identifier.isValid name = true)
    (hlength : path.length ≤ 100) (htext : Path.membersText id path = text) :
    ∃ declaration line output access start stop,
      (locus text).children = [declaration, line, output] ∧
      declaration.element = (Path.resourceTree id (nestedTree [])).locate start ∧
      line.isToken = true ∧ output.isNode = true ∧ output.kind = .outputDecl ∧
      access ∈ output.children ∧ access.element = (openTree Path.receiverTree path).locate stop ∧
      access.span.stop = text.utf8ByteSize := by
  have hroot : (locus text).element = (Tree.node .root
      [Path.resourceTree id (nestedTree []), .leaf .newline "\n", Path.outputTree path]).locate 0 := by
    rw [← parse_membersText id hpath hlength, htext]
    rfl
  have hchildren := Locus.map_element_children (locus text)
  rw [hroot] at hchildren
  obtain ⟨declaration, _, hsplit, hresource, hchildren⟩ := List.map_eq_cons_iff.1 hchildren
  obtain ⟨line, _, rfl, hline, hchildren⟩ := List.map_eq_cons_iff.1 hchildren
  obtain ⟨output, _, rfl, houtput, hchildren⟩ := List.map_eq_cons_iff.1 hchildren
  obtain rfl := List.map_eq_nil_iff.1 hchildren
  have hmem : output ∈ (locus text).children := by simp [hsplit]
  obtain ⟨access, haccess, helement, -, hlast⟩ := Locus.exists_child_of_split
    [.leaf .outputKw "output", .leaf .whitespace " ", .node .name [.leaf .ident "o"],
      .leaf .whitespace " ", .node .typeName [.leaf .ident "string"], .leaf .whitespace " ",
      .leaf .eq "=", .leaf .whitespace " "] houtput
  have hend : access.span.stop = text.utf8ByteSize := by
    have hlocated := (Locus.Under.root.child hmem).located (located_locus text)
    have hchildren : (locus text).children = [declaration, line] ++ [output] := hsplit
    have houtputLast : output.here.right = [] := Locus.right_of_children_eq hchildren
    rw [(hlocated.of_mem_children haccess).2.2.2.2 (hlast rfl),
      ((located_locus text).of_mem_children hmem).2.2.2.2 houtputLast, span_locus]
  exact ⟨declaration, line, output, access, _, _, hsplit, hresource,
    (Locus.isToken_of_element hline).1, (Locus.isNode_of_element houtput).1,
    (Locus.isNode_of_element houtput).2, haccess, helement, hend⟩

/-- At the end of the members along a path, the members of the shape that the path leads to from a
reference to the resource are offered. -/
theorem exists_members (hpath : ∀ name ∈ path, Identifier.isValid name = true)
    (hlength : path.length ≤ 100) (hlookup : types.lookup id = .ok body)
    (hmembers : ∀ shape, types.membersOf shape = shape.members) (settings : Settings) :
    ∃ completion size, completionsIn (Path.membersText id path)
        (Path.membersText id path).utf8ByteSize types settings =
          .ok (Completion.suggestions completion size) ∧
      ∀ label, (∃ suggestion ∈ completion.suggestions size, suggestion.label = label) ↔
        (Shape.ofResource body).Leads path label := by
  generalize htext : Path.membersText id path = text
  obtain ⟨declaration, line, output, access, start, stop, hsplit, hresource, hline, hnode, houtput,
    haccess, helement, hend⟩ := exists_access hpath hlength htext
  have hmem : output ∈ (locus text).children := by simp [hsplit]
  have haccessKind : access.kind = .propertyAccess := Locus.kind_of_element helement
  have hancestors : ∀ ancestor ∈ access.ancestors, ancestor.kind = .propertyAccess ∨
      ancestor.kind = .outputDecl ∨ ancestor.kind = .root := by
    intro ancestor hin
    rw [Locus.ancestors_eq_cons, Locus.properAncestors_of_mem_children haccess,
      Locus.ancestors_of_mem_children hmem, Locus.ancestors_of_isRoot (isRoot_locus text)] at hin
    simp only [List.mem_cons, List.not_mem_nil, or_false] at hin
    rcases hin with rfl | rfl | rfl
    · exact .inl haccessKind
    · exact .inr (.inl houtput)
    · exact .inr (.inr (kind_locus text))
  obtain ⟨context, hcontext, hkind, rfl⟩ := context_of_access
    (Locus.Under.root.child hmem |>.child haccess) helement hend
    fun ancestor hin => by rcases hancestors ancestor hin with h | h | h <;> rw [h] <;> decide
  have hboundary : Bytes.isBoundary text.utf8ByteSize text = true := by
    simpa using isBoundary_append text ""
  refine ⟨_, _, completionsIn_eq_ok types settings hboundary hcontext, fun label => ?_⟩
  obtain ⟨inner, parts, htree, hinner⟩ := Locus.exists_receiverTree path
  have hopen := helement
  rw [openTree, htree] at hopen
  obtain ⟨operand, hoperand, hfound, hoperandElement⟩ :=
    Locus.operand_of_element hopen (by rcases hinner with rfl | rfl <;> rfl)
  rw [← htree] at hoperandElement
  obtain ⟨receiver, hreceiver, hreceiverElement, hreceiverAncestors, hshape⟩ :=
    Locus.exists_receiver hoperandElement
  have hnotLoop : ∀ ancestor ∈ receiver.ancestors, ancestor.kind ≠ .forExpr := by
    intro ancestor hin
    rcases hreceiverAncestors ancestor hin with hin | h | h
    · rw [Locus.properAncestors_of_mem_children hoperand] at hin
      rcases hancestors ancestor hin with h | h | h <;> rw [h] <;> decide
    · rw [h]
      decide
    · rw [h]
      decide
  have hrefers : Refers text id declaration line output receiver :=
    { children := hsplit
      resource := ⟨start, hresource⟩
      isToken_line := hline
      isNode_output := hnode
      kind_output := houtput
      under := (Locus.Under.root.child haccess |>.child hoperand).trans hreceiver
      not_loop := hnotLoop
      receiver := ⟨_, hreceiverElement⟩ }
  rw [Completion.exists_member_iff label hkind haccessKind, hfound, Option.bind_some, hshape,
    hrefers.valueShape hlookup]
  simp [Shape.Leads, hmembers]

end Document

open Document in
/-- Behind a name, a path leads to the same labels in the body of a resource and from a reference to
it. A reference without a path has the labels of the body and three more, and what the body declares
it has as the body has it. -/
theorem labels_along_path (session : Session) (id : String) (body : Shape) (path : List String)
    (hentry : (id, some body) ∈ session.catalog.entries) (hobject : body.isObject = true)
    (hpath : ∀ name ∈ path, Identifier.isValid name = true) (hlength : path.length ≤ 100) :
    (∃ keys members,
      completionsIn (Path.keysText id path) (Path.keysBefore id path).utf8ByteSize session.types
        session.settings = .ok keys ∧
      completionsIn (Path.membersText id path) (Path.membersText id path).utf8ByteSize session.types
        session.settings = .ok members ∧
      (∀ label, label ∈ keys.map Suggestion.label ↔ body.Leads path label) ∧
      (path ≠ [] → members.map Suggestion.label = keys.map Suggestion.label) ∧
      (path = [] → ∀ label, label ∈ members.map Suggestion.label ↔
        label ∈ keys.map Suggestion.label ∨ label ∈ ["apiVersion", "id", "type"])) ∧
    ∀ name, (body.member? name).isSome = true →
      (Shape.ofResource body).member? name = body.member? name := by
  have hlookup : session.types.lookup id = .ok body := by
    unfold Session.types
    split <;> exact Catalog.lookup_eq_ok hentry
  have hmembers : ∀ shape, session.types.membersOf shape = shape.members := by
    unfold Session.types
    split <;> exact fun _ => rfl
  obtain ⟨keys, size, hkeys, hkeyLabels⟩ :=
    exists_keys hpath hlength hlookup hmembers session.settings
  obtain ⟨members, size', hmembersOk, hmemberLabels⟩ :=
    exists_members hpath hlength hlookup hmembers session.settings
  refine ⟨⟨_, _, hkeys, hmembersOk, fun label => ?_, fun hne => ?_, ?_⟩,
    fun name => Shape.member?_ofResource hobject⟩
  · rw [List.mem_map, hkeyLabels]
  · obtain ⟨name, rest, rfl⟩ := List.exists_cons_of_ne_nil hne
    refine Completion.labels_eq fun label => ?_
    rw [hmemberLabels, hkeyLabels, Shape.leads_ofResource_cons hobject]
  · rintro rfl label
    rw [List.mem_map, List.mem_map, hmemberLabels, hkeyLabels, Shape.leads_ofResource_nil hobject]
    rfl

/-- One type of resources, with a type of its own and an object that has an `a`. -/
def Catalog.ofNested : Catalog :=
  Catalog.empty.insert "T@1" (some (.object none
    [Shape.plain "p" (.object none [Shape.plain "a" .int]), Shape.plain "type" .int]))

/-- In `p` there is an `a`, whichever way it is come to. -/
theorem label_in_nested :
    ∃ keys members,
      completionsIn (Path.keysText "T@1" ["p"]) (Path.keysBefore "T@1" ["p"]).utf8ByteSize
        Catalog.ofNested.provider {} = .ok keys ∧
      completionsIn (Path.membersText "T@1" ["p"]) (Path.membersText "T@1" ["p"]).utf8ByteSize
        Catalog.ofNested.provider {} = .ok members ∧
      "a" ∈ keys.map Suggestion.label ∧ "a" ∈ members.map Suggestion.label := by
  obtain ⟨⟨keys, members, hkeys, hmembers, hleads, hsame, -⟩, -⟩ :=
    labels_along_path ⟨.ofText "", Catalog.ofNested, false, {}⟩ "T@1" _ ["p"]
      List.mem_cons_self rfl (by decide +kernel) (by decide)
  have hkey : "a" ∈ keys.map Suggestion.label :=
    (hleads "a").2 ⟨_, rfl, Shape.plain "a" .int, List.mem_cons_self, rfl⟩
  exact ⟨keys, members, hkeys, hmembers, hkey, by rwa [hsame (by decide)]⟩

end Caret
