import Caret.Catalog
import Caret.Proofs.Text.Compact
import Caret.Proofs.Text.Utf8
import Mathlib.Data.List.Forall2
import Mathlib.Data.List.Induction
import Mathlib.Data.List.Nodup

/-!
# What a catalog says of its document

A document lists resource types, and of repeated ids the last one counts. A catalog keeps them in
the order of their ids, so the first entry of a kind is the smallest one: the one that an error
names, and the one that an id leads to that differs from it only in case.
-/

namespace Caret

/-- Of two characters that are the same up to the case of ASCII letters, one may be the lowercase of
the other. -/
def AsciiAlike (c d : Char) : Prop :=
  c = d ∨ ('A' ≤ c ∧ c ≤ 'Z' ∧ d.toNat = c.toNat + 32) ∨
    ('A' ≤ d ∧ d ≤ 'Z' ∧ c.toNat = d.toNat + 32)

theorem toNat_toLower (c : Char) :
    c.toLower.toNat = if 'A' ≤ c ∧ c ≤ 'Z' then c.toNat + 32 else c.toNat := by
  by_cases h : 'A' ≤ c ∧ c ≤ 'Z'
  · have hle : c.val.toNat ≤ 90 := h.2
    have hsum : (c.val + ('a'.val - 'A'.val)).toNat = c.val.toNat + 32 := by
      have hshift : ('a'.val - 'A'.val).toNat = 32 := rfl
      rw [UInt32.toNat_add, hshift]
      omega
    rw [if_pos h]
    exact (congrArg Char.toNat (dif_pos h)).trans hsum
  · rw [if_neg h]
    exact congrArg Char.toNat (dif_neg h)

theorem toLower_eq_iff {c d : Char} : c.toLower = d.toLower ↔ AsciiAlike c d := by
  have hletter : ∀ c : Char, 'A' ≤ c ∧ c ≤ 'Z' ↔ 65 ≤ c.toNat ∧ c.toNat ≤ 90 := fun _ => Iff.rfl
  rw [← Char.toNat_inj, toNat_toLower, toNat_toLower, AsciiAlike, ← Char.toNat_inj, ← and_assoc,
    ← and_assoc]
  simp only [hletter]
  split <;> split <;> omega

namespace Keyed

variable {α : Type} {key : α → String} {x y z : α} {xs before after : List α} {test : α → Bool}

theorem eq_of_sorted (hsorted : Sorted key xs) (hy : y ∈ xs) (hz : z ∈ xs) (h : key y = key z) :
    y = z := by
  have hnodup : (xs.map key).Nodup := List.pairwise_map.2 (hsorted.imp fun hlt => String.ne_of_lt hlt)
  exact List.inj_on_of_nodup_map hnodup hy hz h

theorem mem_insert_iff (hsorted : Sorted key xs) :
    y ∈ insert key x xs ↔ y = x ∨ y ∈ xs ∧ key y ≠ key x := by
  constructor
  · intro hmem
    by_cases hkey : key y = key x
    · exact .inl (eq_of_sorted (sorted_insert hsorted) hmem (mem_insert_self x xs) hkey)
    · exact (eq_or_mem_of_mem_insert hmem).imp_right fun hmem => ⟨hmem, hkey⟩
  · rintro (rfl | ⟨hmem, hkey⟩)
    · exact mem_insert_self y xs
    · exact mem_insert_of_ne hmem hkey

/-- In front of an element stand those with a smaller key. -/
theorem mem_before_iff (hsorted : Sorted key (before ++ x :: after)) :
    y ∈ before ↔ y ∈ before ++ x :: after ∧ key y < key x := by
  obtain ⟨-, htail, hcross⟩ := List.pairwise_append.1 hsorted
  constructor
  · intro hmem
    exact ⟨List.mem_append_left _ hmem, hcross y hmem x List.mem_cons_self⟩
  · rintro ⟨hmem, hlt⟩
    rcases List.mem_append.1 hmem with hmem | hmem
    · exact hmem
    · rcases List.mem_cons.1 hmem with rfl | hmem
      · exact absurd hlt (String.lt_irrefl _)
      · exact absurd hlt (String.lt_asymm ((List.pairwise_cons.1 htail).1 y hmem))

/-- The first element that passes a test is the one with the smallest key. -/
theorem find?_eq_some_iff_smallest (hsorted : Sorted key xs) :
    xs.find? test = some x ↔
      x ∈ xs ∧ test x = true ∧ ∀ y ∈ xs, test y = true → key x ≤ key y := by
  rw [List.find?_eq_some_iff_append]
  constructor
  · rintro ⟨hx, before, after, rfl, hbefore⟩
    refine ⟨by simp, hx, fun y hmem hy => String.not_lt.1 fun hlt => ?_⟩
    have hnot := hbefore y ((mem_before_iff hsorted).2 ⟨hmem, hlt⟩)
    simp [hy] at hnot
  · rintro ⟨hmem, hx, hsmallest⟩
    obtain ⟨before, after, rfl⟩ := List.append_of_mem hmem
    refine ⟨hx, before, after, rfl, fun y hy => ?_⟩
    obtain ⟨hmem, hlt⟩ := (mem_before_iff hsorted).1 hy
    have hnot : ¬test y = true := fun htrue => String.not_lt.2 (hsmallest y hmem htrue) hlt
    simpa using hnot

end Keyed

section

variable {α ε : Type} {key : α → String} {f : α → Except ε Unit} {xs : List α} {error : ε}

theorem forM_eq_ok_iff : xs.forM f = .ok () ↔ ∀ x ∈ xs, f x = .ok () := by
  induction xs with
  | nil => simp [List.forM, pure, Except.pure]
  | cons first rest ih =>
      change (f first >>= fun _ => rest.forM f) = .ok () ↔ _
      rw [List.forall_mem_cons, ← ih]
      cases f first <;> simp [bind, Except.bind]

/-- A check in the order of the keys fails for the smallest key that it fails for. -/
theorem forM_eq_error_iff_smallest (hsorted : Keyed.Sorted key xs) :
    xs.forM f = .error error ↔
      ∃ x ∈ xs, f x = .error error ∧ ∀ y ∈ xs, key y < key x → f y = .ok () := by
  induction xs with
  | nil => simp [List.forM, pure, Except.pure]
  | cons first rest ih =>
      obtain ⟨hfirst, hrest⟩ := List.pairwise_cons.1 hsorted
      change (f first >>= fun _ => rest.forM f) = .error error ↔ _
      cases hcheck : f first with
      | error fault =>
          constructor
          · intro h
            refine ⟨first, List.mem_cons_self, hcheck.trans h, fun y hy hlt => ?_⟩
            rcases List.mem_cons.1 hy with rfl | hy
            · exact absurd hlt (String.lt_irrefl _)
            · exact absurd hlt (String.lt_asymm (hfirst y hy))
          · rintro ⟨x, hx, hfails, hsmaller⟩
            rcases List.mem_cons.1 hx with rfl | hx
            · exact hcheck.symm.trans hfails
            · have hok := hsmaller first List.mem_cons_self (hfirst x hx)
              simp [hcheck] at hok
      | ok =>
          refine (ih hrest).trans ⟨?_, ?_⟩
          · rintro ⟨x, hx, hfails, hsmaller⟩
            refine ⟨x, List.mem_cons_of_mem first hx, hfails, fun y hy hlt => ?_⟩
            rcases List.mem_cons.1 hy with rfl | hy
            · exact hcheck
            · exact hsmaller y hy hlt
          · rintro ⟨x, hx, hfails, hsmaller⟩
            rcases List.mem_cons.1 hx with rfl | hx
            · simp [hcheck] at hfails
            · exact ⟨x, hx, hfails, fun y hy => hsmaller y (List.mem_cons_of_mem first hy)⟩

end

namespace Catalog

/-! ## The entries of a document -/

/-- The listed types in the order in which they are written, repeated ids included. -/
def writtenTypes : Json → Option (List (String × Option Shape))
  | .object members => do
    let named ← Json.named members
    named.mapM fun (id, json) => (readBody json).map (id, ·)
  | _ => none

/-- What is written in a document that describes resource types. -/
def written (json : Json) : Option (List (String × Option Shape)) := do
  match ← Json.fields ["resourceTypes"] json with
  | [some types] => writtenTypes types
  | _ => some []

def ofEntries (entries : List (String × Option Shape)) : Catalog :=
  entries.foldl (fun catalog (id, body) => catalog.insert id body) empty

variable {entries : List (String × Option Shape)} {id other : String} {body : Option Shape}

theorem readTypes_eq (json : Json) : readTypes json = (writtenTypes json).map ofEntries := by
  cases json with
  | object members =>
      cases hnamed : Json.named members with
      | none => simp [readTypes, writtenTypes, hnamed]
      | some named =>
          simp only [readTypes, writtenTypes, hnamed, Option.bind_eq_bind, Option.bind_some]
          exact Option.map_eq_bind.symm
  | _ => rfl

theorem read_eq (json : Json) : read json = (written json).map ofEntries := by
  cases hfields : Json.fields ["resourceTypes"] json with
  | none => simp [read, written, hfields]
  | some fields =>
      simp only [read, written, hfields, Option.bind_eq_bind, Option.bind_some]
      cases fields with
      | nil => rfl
      | cons first rest =>
          cases rest with
          | nil =>
              cases first with
              | none => rfl
              | some types => exact readTypes_eq types
          | cons second rest => cases first <;> rfl

theorem parse_eq {source : String} (h : (Json.parse source).bind written = some entries) :
    parse source = (ofEntries entries).check := by
  have hread : (Json.parse source).bind read = some (ofEntries entries) := by
    obtain ⟨json, hjson, hwritten⟩ := Option.bind_eq_some_iff.1 h
    rw [hjson, Option.bind_some, read_eq, hwritten, Option.map_some]
  rw [parse, hread]

/-- An entry counts if none with its id comes after it. -/
def Counts (entries : List (String × Option Shape)) (id : String) (body : Option Shape) : Prop :=
  ∃ before after, entries = before ++ (id, body) :: after ∧ ∀ entry ∈ after, entry.1 ≠ id

def Listed (entries : List (String × Option Shape)) (id : String) : Prop :=
  ∃ body, (id, body) ∈ entries

theorem counts_concat_iff {last : String × Option Shape} :
    Counts (entries ++ [last]) id body ↔
      (id, body) = last ∨ Counts entries id body ∧ id ≠ last.1 := by
  constructor
  · rintro ⟨before, after, hsplit, hafter⟩
    rcases List.eq_nil_or_concat' after with rfl | ⟨init, final, rfl⟩
    · exact .inl (List.append_inj_right' hsplit rfl |> List.cons.inj |>.1.symm)
    · rw [← List.cons_append, ← List.append_assoc] at hsplit
      obtain ⟨rfl, hlast⟩ := List.append_inj' hsplit rfl
      obtain rfl : last = final := (List.cons.inj hlast).1
      refine .inr ⟨⟨before, init, rfl, fun entry hentry => ?_⟩, ?_⟩
      · exact hafter entry (List.mem_append_left _ hentry)
      · exact Ne.symm (hafter last (by simp))
  · rintro (rfl | ⟨⟨before, after, rfl, hafter⟩, hne⟩)
    · exact ⟨entries, [], rfl, by simp⟩
    · refine ⟨before, after ++ [last], by simp, fun entry hentry => ?_⟩
      rcases List.mem_append.1 hentry with hentry | hentry
      · exact hafter entry hentry
      · rw [List.mem_singleton.1 hentry]
        exact Ne.symm hne

/-- A catalog holds the entries that count. -/
theorem mem_ofEntries_iff : (id, body) ∈ (ofEntries entries).entries ↔ Counts entries id body := by
  induction entries using List.reverseRecOn with
  | nil => simp [ofEntries, empty, Counts]
  | append_singleton entries last ih =>
      have hinsert : (ofEntries (entries ++ [last])).entries =
          Keyed.insert Prod.fst last (ofEntries entries).entries := by
        simp [ofEntries, insert]
      rw [hinsert, Keyed.mem_insert_iff (ofEntries entries).sorted, ih, counts_concat_iff]

theorem exists_counts_iff : (∃ body, Counts entries id body) ↔ Listed entries id := by
  induction entries using List.reverseRecOn with
  | nil => simp [Counts, Listed]
  | append_singleton entries last ih =>
      obtain ⟨lastId, lastBody⟩ := last
      simp only [Listed] at ih ⊢
      simp only [counts_concat_iff, List.mem_append, List.mem_singleton, exists_or, ← ih,
        exists_and_right, Prod.mk.injEq]
      by_cases hid : id = lastId <;> simp [hid]

theorem mem_ids_iff : id ∈ (ofEntries entries).ids ↔ Listed entries id := by
  rw [← exists_counts_iff]
  simp [ids, mem_ofEntries_iff]

/-! ## The entry that an error names -/

/-- An id without a version, or a body that is not an object. -/
def Faulty (id : String) (body : Option Shape) : Prop :=
  '@' ∉ id.toList ∨ ∃ shape, body = some shape ∧ ∀ name members, shape ≠ .object name members

/-- A missing version is told first. -/
def fault (id : String) : CatalogError :=
  if '@' ∈ id.toList then .bodyNotObject id else .missingVersion id

theorem isObject_iff {shape : Shape} :
    shape.isObject = true ↔ ∃ name members, shape = .object name members := by
  cases shape <;> simp [Shape.isObject]

theorem checkEntry_of_faulty (h : Faulty id body) : checkEntry (id, body) = .error (fault id) := by
  by_cases hversion : '@' ∈ id.toList
  · obtain ⟨shape, rfl, hshape⟩ := h.resolve_left (not_not.2 hversion)
    have hobject : shape.isObject = false := by
      rw [Bool.eq_false_iff, Ne, isObject_iff]
      rintro ⟨name, members, rfl⟩
      exact hshape name members rfl
    simp [checkEntry, fault, hversion, hobject]
  · simp [checkEntry, fault, hversion]

theorem checkEntry_of_not_faulty (h : ¬Faulty id body) : checkEntry (id, body) = .ok () := by
  obtain ⟨hversion, hbody⟩ := not_or.1 h
  rw [not_not] at hversion
  cases body with
  | none => simp [checkEntry, hversion]
  | some shape =>
      have hobject : shape.isObject = true := by
        by_contra hobject
        rw [isObject_iff] at hobject
        exact hbody ⟨shape, rfl, fun name members heq => hobject ⟨name, members, heq⟩⟩
      simp [checkEntry, hversion, hobject]

theorem checkEntry_eq_ok_iff : checkEntry (id, body) = .ok () ↔ ¬Faulty id body := by
  refine ⟨fun hok hfaulty => ?_, checkEntry_of_not_faulty⟩
  rw [checkEntry_of_faulty hfaulty] at hok
  cases hok

theorem check_eq_error_iff {catalog : Catalog} {error : CatalogError} :
    catalog.check = .error error ↔ ∃ id body, (id, body) ∈ catalog.entries ∧ Faulty id body ∧
      (∀ other ∈ catalog.entries, Faulty other.1 other.2 → id ≤ other.1) ∧ error = fault id := by
  have hforM : catalog.check = .error error ↔ catalog.entries.forM checkEntry = .error error := by
    rw [check]
    cases catalog.entries.forM checkEntry <;> simp [bind, Except.bind, pure, Except.pure]
  rw [hforM, forM_eq_error_iff_smallest catalog.sorted]
  constructor
  · rintro ⟨⟨id, body⟩, hmem, herror, hsmaller⟩
    have hfaulty : Faulty id body := by
      by_contra hfaulty
      rw [checkEntry_of_not_faulty hfaulty] at herror
      cases herror
    rw [checkEntry_of_faulty hfaulty] at herror
    refine ⟨id, body, hmem, hfaulty, fun other hother hfault => ?_, (Except.error.inj herror).symm⟩
    exact String.not_lt.1 fun hlt => checkEntry_eq_ok_iff.1 (hsmaller other hother hlt) hfault
  · rintro ⟨id, body, hmem, hfaulty, hsmallest, rfl⟩
    refine ⟨(id, body), hmem, checkEntry_of_faulty hfaulty, fun other hother hlt => ?_⟩
    exact checkEntry_of_not_faulty fun hfault =>
      String.not_lt.2 (hsmallest other hother hfault) hlt

theorem check_eq_ok_iff {catalog checked : Catalog} :
    catalog.check = .ok checked ↔
      checked = catalog ∧ ∀ entry ∈ catalog.entries, ¬Faulty entry.1 entry.2 := by
  have hforM : catalog.entries.forM checkEntry = .ok () ↔
      ∀ entry ∈ catalog.entries, ¬Faulty entry.1 entry.2 :=
    forM_eq_ok_iff.trans (forall₂_congr fun _ _ => checkEntry_eq_ok_iff)
  rw [← hforM, check]
  cases catalog.entries.forM checkEntry with
  | error error => simp [bind, Except.bind]
  | ok => simp [bind, Except.bind, pure, Except.pure, eq_comm]

/-- A document that does not list resource types is told apart from one that is at fault. -/
theorem parse_eq_malformed_iff {source : String} :
    parse source = .error .malformed ↔ (Json.parse source).bind written = none := by
  cases hwritten : (Json.parse source).bind written with
  | none =>
      have hread : (Json.parse source).bind read = none := by
        rw [Option.bind_eq_none_iff] at hwritten ⊢
        intro json hjson
        rw [read_eq, hwritten json hjson, Option.map_none]
      rw [parse, hread]
      simp
  | some entries =>
      rw [parse_eq hwritten, check_eq_error_iff]
      constructor
      · rintro ⟨id, body, -, -, -, hfault⟩
        rw [fault] at hfault
        split at hfault <;> cases hfault
      · nofun

/-! ## Ids up to the case of ASCII letters -/

/-- Texts of characters that are the same up to the case of ASCII letters. -/
def Alike (left right : String) : Prop := List.Forall₂ AsciiAlike left.toList right.toList

/-- Whether a text begins with another one up to the case of ASCII letters. -/
def Begins (typed id : String) : Prop :=
  ∃ before after, id.toList = before ++ after ∧ List.Forall₂ AsciiAlike typed.toList before

theorem map_toLower_eq_iff {cs ds : List Char} :
    cs.map Char.toLower = ds.map Char.toLower ↔ List.Forall₂ AsciiAlike cs ds := by
  rw [← List.forall₂_eq_eq_eq, List.forall₂_map_left_iff, List.forall₂_map_right_iff]
  simp only [toLower_eq_iff]

theorem mem_available_iff {catalog : Catalog} {typed : String} :
    id ∈ catalog.available typed ↔ id ∈ catalog.ids ∧ Begins typed id := by
  rw [available, List.mem_filter, List.isPrefixOf_iff_prefix, asciiLowercase, asciiLowercase,
    Begins]
  refine and_congr_right fun _ => ⟨?_, ?_⟩
  · rintro ⟨rest, happend⟩
    obtain ⟨before, after, hsplit, hbefore, -⟩ := List.map_eq_append_iff.1 happend.symm
    exact ⟨before, after, hsplit, map_toLower_eq_iff.1 hbefore.symm⟩
  · rintro ⟨before, after, hsplit, halike⟩
    rw [hsplit, List.map_append, map_toLower_eq_iff.2 halike]
    exact List.prefix_append _ _

/-- What an entry says when it is looked up. -/
def answer (id : String) : Option Shape → Except LookupError Shape
  | some shape => .ok shape
  | none => .error (.noShape id)

variable {catalog : Catalog}

theorem lookup_eq_answer (h : catalog.entry? id = some (other, body)) :
    catalog.lookup id = answer other body := by
  rw [lookup, h]
  cases body <;> rfl

theorem lookup_of_mem (h : (id, body) ∈ catalog.entries) : catalog.lookup id = answer id body := by
  have hfound : catalog.entries.find? (fun entry => entry.1 = id) = some (id, body) := by
    refine (Keyed.find?_eq_some_iff_smallest catalog.sorted).2 ⟨h, by simp, fun other _ hother => ?_⟩
    have hid : other.1 = id := by simpa using hother
    exact hid ▸ String.le_refl _
  apply lookup_eq_answer
  rw [ entry?, hfound, Option.some_or]

/-- The entry that an unlisted id leads to. -/
theorem lookup_of_not_mem (catalog : Catalog) (h : id ∉ catalog.ids) :
    (∃ other body, (other, body) ∈ catalog.entries ∧ Alike other id ∧
      (∀ third ∈ catalog.ids, Alike third id → other ≤ third) ∧
      catalog.lookup id = answer other body) ∨
    (∀ other ∈ catalog.ids, ¬Alike other id) ∧ catalog.lookup id = .error (.unknownType id) := by
  have hexact : catalog.entries.find? (fun entry => entry.1 = id) = none := by
    rw [List.find?_eq_none]
    intro entry hmem hid
    exact h (List.mem_map.2 ⟨entry, hmem, by simpa using hid⟩)
  have htest : ∀ {other : String}, decide (asciiLowercase other = asciiLowercase id) = true ↔
      Alike other id := decide_eq_true_iff.trans map_toLower_eq_iff
  have hentry : catalog.entry? id =
      catalog.entries.find? fun entry => asciiLowercase entry.1 = asciiLowercase id := by
    rw [ entry?, hexact, Option.none_or]
  cases hfound : catalog.entries.find? fun entry => asciiLowercase entry.1 = asciiLowercase id with
  | none =>
      refine .inr ⟨fun other hother halike => ?_, ?_⟩
      · obtain ⟨entry, hmem, rfl⟩ := List.mem_map.1 hother
        exact List.find?_eq_none.1 hfound entry hmem (htest.2 halike)
      · rw [lookup, hentry, hfound]
  | some entry =>
      obtain ⟨other, body⟩ := entry
      obtain ⟨hmem, halike, hsmallest⟩ := (Keyed.find?_eq_some_iff_smallest catalog.sorted).1 hfound
      refine .inl ⟨other, body, hmem, htest.1 halike, fun third hthird hthirdAlike => ?_, ?_⟩
      · obtain ⟨entry, hentryMem, rfl⟩ := List.mem_map.1 hthird
        exact hsmallest entry hentryMem (htest.2 hthirdAlike)
      · exact lookup_eq_answer (hentry.trans hfound)

end Catalog

open Catalog in
/-- Which documents are turned down, and what is offered and found in those that are not. -/
theorem Catalog.parse_of_written {source : String} {entries : List (String × Option Shape)}
    (hwritten : (Json.parse source).bind written = some entries) :
    ((∃ error, parse source = .error error) ↔ ∃ id body, Counts entries id body ∧ Faulty id body) ∧
    (∀ error, parse source = .error error ↔
      ∃ id body, Counts entries id body ∧ Faulty id body ∧
        (∀ other body, Counts entries other body → Faulty other body →
          Bytes.ofText id ≤ Bytes.ofText other) ∧
        error = if '@' ∈ id.toList then .bodyNotObject id else .missingVersion id) ∧
    ∀ catalog, parse source = .ok catalog →
      (∀ typed, ((catalog.available typed).map Bytes.ofText).Pairwise (· < ·) ∧
        ∀ id, id ∈ catalog.available typed ↔ Listed entries id ∧ Begins typed id) ∧
      (∀ id body, Counts entries id body → catalog.lookup id = answer id body) ∧
      ∀ id, ¬Listed entries id →
        (∃ other body, Counts entries other body ∧ Alike other id ∧
          (∀ third, Listed entries third → Alike third id →
            Bytes.ofText other ≤ Bytes.ofText third) ∧
          catalog.lookup id = answer other body) ∨
        (∀ other, Listed entries other → ¬Alike other id) ∧
          catalog.lookup id = .error (.unknownType id) := by
  have hids : ∀ {id}, id ∈ (ofEntries entries).ids ↔ Listed entries id := mem_ids_iff
  simp only [Bytes.ofText_le_iff, parse_eq hwritten]
  have herror : ∀ error, (ofEntries entries).check = .error error ↔
      ∃ id body, Counts entries id body ∧ Faulty id body ∧
        (∀ other body, Counts entries other body → Faulty other body → id ≤ other) ∧
        error = if '@' ∈ id.toList then .bodyNotObject id else .missingVersion id := fun error => by
    simp only [check_eq_error_iff, Prod.forall, mem_ofEntries_iff, fault]
  refine ⟨⟨?_, ?_⟩, herror, ?_⟩
  · rintro ⟨error, hfails⟩
    obtain ⟨id, body, hcounts, hfaulty, -⟩ := (herror error).1 hfails
    exact ⟨id, body, hcounts, hfaulty⟩
  · rintro ⟨id, body, hcounts, hfaulty⟩
    cases hcheck : (ofEntries entries).check with
    | error error => exact ⟨error, rfl⟩
    | ok checked =>
        have hnone := (check_eq_ok_iff.1 hcheck).2 (id, body) (mem_ofEntries_iff.2 hcounts)
        exact absurd hfaulty hnone
  · intro catalog hcheck
    obtain ⟨rfl, -⟩ := check_eq_ok_iff.1 hcheck
    refine ⟨fun typed => ⟨?_, fun id => ?_⟩, fun id body hcounts => ?_, fun id hunlisted => ?_⟩
    · refine List.pairwise_map.2 (((ofEntries entries).pairwise_ids.filter _).imp fun hlt => ?_)
      exact (Bytes.ofText_lt_iff _ _).2 hlt
    · rw [mem_available_iff, hids]
    · exact lookup_of_mem (mem_ofEntries_iff.2 hcounts)
    · simpa only [mem_ofEntries_iff, hids] using
        lookup_of_not_mem (ofEntries entries) (mt hids.1 hunlisted)

/-- Of two entries at fault the error names the one with the smaller id. -/
theorem Catalog.parse_eq_bodyNotObject :
    (Json.parse "\x7b\"resourceTypes\":\x7b\"a\":null,\"B@1\":\x7b\"type\":\"int\"\x7d\x7d\x7d").bind
        written = some [("a", none), ("B@1", some .int)] ∧
      parse "\x7b\"resourceTypes\":\x7b\"a\":null,\"B@1\":\x7b\"type\":\"int\"\x7d\x7d\x7d" =
        .error (.bodyNotObject "B@1") := by
  have hparse : Json.parse
      "\x7b\"resourceTypes\":\x7b\"a\":null,\"B@1\":\x7b\"type\":\"int\"\x7d\x7d\x7d" =
        some (.object [Json.entry "resourceTypes" (.object [Json.entry "a" .null,
          Json.entry "B@1" (.object [Json.entry "type" (Json.text "int")])])]) :=
    Json.parse_of_compact rfl
  have hwritten : (Json.parse
      "\x7b\"resourceTypes\":\x7b\"a\":null,\"B@1\":\x7b\"type\":\"int\"\x7d\x7d\x7d").bind
        written = some [("a", none), ("B@1", some .int)] := by
    rw [hparse]
    rfl
  refine ⟨hwritten, ((parse_of_written hwritten).2.1 _).2 ⟨"B@1", some .int, ?_, ?_, ?_, ?_⟩⟩
  · exact ⟨[("a", none)], [], rfl, by simp⟩
  · exact .inr ⟨.int, rfl, nofun⟩
  · rintro other body ⟨before, after, hsplit, -⟩ -
    have hmem : (other, body) ∈ [("a", none), ("B@1", some Shape.int)] := hsplit ▸ by simp
    rw [Bytes.ofText_le_iff]
    obtain ⟨rfl, -⟩ | ⟨rfl, -⟩ : other = "a" ∧ _ ∨ other = "B@1" ∧ _ := by simpa using hmem
    · decide
    · decide
  · decide

end Caret
