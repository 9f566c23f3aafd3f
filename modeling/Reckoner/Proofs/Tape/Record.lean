import Reckoner.Proofs.Json.Printing
import Reckoner.Tape.Record

/-!
# Entries come back from JSON

An entry is read from its own JSON text, and from every other spelling of an object that has the members of the entry in
any order among members of other names (`ofJson?_of_members`). An object is read by its names alone, so only how often a
name occurs matters: fields that are a permutation of others give the same (`field?_of_perm`).
-/

namespace Reckoner

namespace Json

theorem toString?_pieces (s : String) : toString? (pieces s) = some s := by
  have hdecode : ∀ cs : List Char, decode? (cs.map .char) = some cs := by
    intro cs
    induction cs with
    | nil => rfl
    | cons c cs ih => rw [List.map_cons, decode?, ih, Option.map_some]
  rw [toString?, pieces, hdecode, Option.map_some, String.ofList_toList]

theorem toNat?_ofNat {n bound : Nat} (h : n < bound) : (ofNat n).toNat? bound = some n := by
  have hdigits : (Nat.toDigits 10 n).all Char.isDigit = true :=
    List.all_eq_true.mpr fun _ hc => Decimal.isDigit_of_mem_toDigits hc
  rw [ofNat, Value.toNat?]
  simp only [Nat.ofDigitChars_ten_toDigits, hdigits, h, and_self, if_true]

end Json

namespace Entry

open Json

variable {e : Entry UInt64} {fields : List (String × Value)}

/-- The names of an entry's fields. -/
def fieldNames : List String :=
  ["expression", "result", "created_at"]

/-- The members of an entry's object, their names in pieces. -/
def objectMembers (e : Entry UInt64) : List (List Piece × Value) :=
  e.members.map fun m => (pieces m.1, m.2)

/-! ### Fields by their names -/

theorem field?_of_perm {others : List (String × Value)} {name : String} {v : Value} (h : fields.Perm others)
    (hothers : others.filter (·.1 == name) = [(name, v)]) : field? fields name = some v := by
  have hfilter : fields.filter (·.1 == name) = [(name, v)] := by
    rw [← List.perm_singleton, ← hothers]
    exact h.filter _
  rw [field?, hfilter]

theorem ofValues?_members (e : Entry UInt64) :
    ofValues? (ofString e.expression) (ofString e.result) (ofNat e.stamp.toNat) = some e := by
  have hstring : ∀ s, (ofString s).toString? = some s := toString?_pieces
  have hstamp : (ofNat e.stamp.toNat).toNat? stampBound = some e.stamp.toNat := toNat?_ofNat e.stamp.toNat_lt
  rw [ofValues?, hstring, hstring, hstamp]
  simp only [UInt64.ofNat_toNat]

/-- An entry's fields describe it in any order and among fields of other names. -/
theorem ofFields?_of_perm {extra : List (String × Value)} (h : fields.Perm (e.members ++ extra))
    (hextra : ∀ f ∈ extra, f.1 ∉ fieldNames) : ofFields? fields = some e := by
  have hnone : ∀ name ∈ fieldNames, extra.filter (·.1 == name) = [] := by
    intro name hname
    refine List.filter_eq_nil_iff.mpr fun f hf hfname => hextra f hf ?_
    rw [eq_of_beq hfname]
    exact hname
  have hfield : ∀ {name : String} {v : Value}, name ∈ fieldNames → e.members.filter (·.1 == name) = [(name, v)] →
      field? fields name = some v := by
    intro name v hname hfilter
    refine field?_of_perm h ?_
    rw [List.filter_append, hfilter, hnone name hname, List.append_nil]
  rw [ofFields?, hfield (by decide) rfl, hfield (by decide) rfl, hfield (by decide) rfl]
  exact ofValues?_members e

/-! ### Objects -/

/-- The field of a member whose name can be decoded. -/
def decoded (m : List Piece × Value) : String × Value :=
  ((toString? m.1).getD "", m.2)

theorem mapM_namedField? {members : List (List Piece × Value)} (h : ∀ m ∈ members, ∃ name, toString? m.1 = some name) :
    members.mapM namedField? = some (members.map decoded) := by
  induction members with
  | nil => rfl
  | cons m members ih =>
    obtain ⟨⟨name, hname⟩, hmembers⟩ := List.forall_mem_cons.mp h
    have hfield : namedField? m = some (decoded m) := by
      rw [namedField?, decoded, hname, Option.map_some, Option.getD_some]
    rw [List.mapM_cons, hfield, ih hmembers]
    rfl

theorem map_decoded_objectMembers (e : Entry UInt64) : e.objectMembers.map decoded = e.members := by
  rw [objectMembers, List.map_map]
  refine List.map_id'' (fun m => ?_) e.members
  rw [Function.comp_apply, decoded, toString?_pieces, Option.getD_some]

theorem ofValue?_object {extra members : List (List Piece × Value)}
    (hextra : ∀ m ∈ extra, ∃ name, toString? m.1 = some name ∧ name ∉ fieldNames)
    (h : members.Perm (e.objectMembers ++ extra)) : ofValue? (.object members) = some e := by
  have hown : ∀ m ∈ e.objectMembers, ∃ name, toString? m.1 = some name := by
    intro m hm
    obtain ⟨f, -, rfl⟩ := List.mem_map.mp hm
    exact ⟨f.1, toString?_pieces f.1⟩
  have hnames : ∀ m ∈ members, ∃ name, toString? m.1 = some name := by
    intro m hm
    rcases List.mem_append.mp (h.mem_iff.mp hm) with hm | hm
    · exact hown m hm
    · obtain ⟨name, hname, -⟩ := hextra m hm
      exact ⟨name, hname⟩
  have hperm : (members.map decoded).Perm (e.members ++ extra.map decoded) := by
    rw [← map_decoded_objectMembers, ← List.map_append]
    exact h.map decoded
  rw [ofValue?, mapM_namedField? hnames]
  refine ofFields?_of_perm hperm fun f hf => ?_
  obtain ⟨m, hm, rfl⟩ := List.mem_map.mp hf
  obtain ⟨name, hname, hother⟩ := hextra m hm
  rw [decoded, hname]
  exact hother

/-! ### Texts -/

theorem isWritable_of_mem_objectMembers :
    ∀ m ∈ e.objectMembers, (∀ piece ∈ m.1, piece.IsWritable) ∧ m.2.IsWritable := by
  intro m hm
  obtain ⟨f, hf, rfl⟩ := List.mem_map.mp hm
  refine ⟨isWritable_of_mem_pieces, ?_⟩
  simp only [members, List.mem_cons, List.not_mem_nil, or_false] at hf
  rcases hf with rfl | rfl | rfl
  · exact .string isWritable_of_mem_pieces
  · exact .string isWritable_of_mem_pieces
  · exact .number (isNumeral_toDigits _)

theorem spellsDocument_json (e : Entry UInt64) : SpellsDocument (.object e.objectMembers) e.json.toList := by
  rw [json, String.toList_ofList]
  exact spellsDocument_text (.object (fun m hm => (isWritable_of_mem_objectMembers m hm).1)
    fun m hm => (isWritable_of_mem_objectMembers m hm).2)

/-- **Entries come back from JSON**: an entry from its own text, and from any spelling of an object with its members in
any order, among members with whatever other names and values. -/
theorem ofJson?_of_members (e : Entry UInt64) :
    ofJson? e.json = some e ∧
      ∀ {extra members : List (List Piece × Value)} {text : String},
        (∀ m ∈ extra, ∃ name, toString? m.1 = some name ∧ name ∉ fieldNames) →
          members.Perm (e.objectMembers ++ extra) → SpellsDocument (.object members) text.toList →
            ofJson? text = some e := by
  have hspelled : ∀ {extra members : List (List Piece × Value)} {text : String},
      (∀ m ∈ extra, ∃ name, toString? m.1 = some name ∧ name ∉ fieldNames) →
        members.Perm (e.objectMembers ++ extra) → SpellsDocument (.object members) text.toList →
          ofJson? text = some e := by
    intro extra members text hextra hperm htext
    rw [ofJson?, ofText?_of_spells htext]
    exact ofValue?_object hextra hperm
  have hperm : e.objectMembers.Perm (e.objectMembers ++ []) := by rw [List.append_nil]
  exact ⟨hspelled (by simp) hperm (spellsDocument_json e), hspelled⟩

/-- The stamp comes first here, and a foreign member has a field's name further in and half a character. -/
theorem ofJson?_of_stamp_first :
    let e : Entry UInt64 := ⟨"2×3", "6", 1700000000⟩
    let tag : List Piece × Value := (pieces "tag", .array [.null, .object [(pieces "result", .string [.surrogate 0xd800])]])
    let members : List (List Piece × Value) := [(pieces "created_at", ofNat 1700000000), tag,
      (pieces "expression", ofString "2×3"), (pieces "result", ofString "6")]
    let text := "\x7b\"created_at\":1700000000,\"tag\":[null,\x7b\"result\":\"\\ud800\"\x7d],\"expression\":\"2×3\",\"result\":\"6\"\x7d"
    (∀ m ∈ [tag], ∃ name, toString? m.1 = some name ∧ name ∉ fieldNames) ∧ members.Perm (e.objectMembers ++ [tag]) ∧
      SpellsDocument (.object members) text.toList ∧ ofJson? text = some e := by
  intro e tag members text
  have hextra : ∀ m ∈ [tag], ∃ name, toString? m.1 = some name ∧ name ∉ fieldNames :=
    List.forall_mem_singleton.mpr ⟨"tag", toString?_pieces "tag", by decide⟩
  have hperm : members.Perm (e.objectMembers ++ [tag]) :=
    show (members.take 2 ++ members.drop 2).Perm (members.drop 2 ++ members.take 2) from List.perm_append_comm
  have htag : tag.2.IsWritable := by
    have hhalf : Piece.IsWritable (.surrogate 0xd800) := by
      rw [Piece.IsWritable]
      decide
    have hresult : Value.IsWritable (.string [.surrogate 0xd800]) := .string (List.forall_mem_singleton.mpr hhalf)
    have hobject : Value.IsWritable (.object [(pieces "result", .string [.surrogate 0xd800])]) :=
      .object (List.forall_mem_singleton.mpr isWritable_of_mem_pieces) (List.forall_mem_singleton.mpr hresult)
    exact .array (List.forall_mem_cons.mpr ⟨.null, List.forall_mem_singleton.mpr hobject⟩)
  have hmembers : ∀ m ∈ members, (∀ piece ∈ m.1, piece.IsWritable) ∧ m.2.IsWritable := by
    intro m hm
    rcases List.mem_append.mp (hperm.mem_iff.mp hm) with hm | hm
    · exact isWritable_of_mem_objectMembers m hm
    · cases List.mem_singleton.mp hm
      exact ⟨isWritable_of_mem_pieces, htag⟩
  have htext : text.toList = (Value.object members).text := by
    decide
  have hspells : SpellsDocument (.object members) text.toList :=
    htext ▸ spellsDocument_text (.object (fun m hm => (hmembers m hm).1) fun m hm => (hmembers m hm).2)
  exact ⟨hextra, hperm, hspells, (ofJson?_of_members e).2 hextra hperm hspells⟩

end Entry
end Reckoner
