import ResourceOrder.Json.Forms
import ResourceOrder.Proofs.Json.Reading

/-!
# Properties and resources that are written and read again

The shape of a property value is told by the kind of its JSON value alone, so a string is read as a
string and a list as a list, of whatever length (`PropertyValue.ofJson?_toJson`).  The entries of
properties stand in the order of their names.  Whatever is read is put behind what was read before
(`Entries.put_of_forall_lt`), and so reading them one after the other gives back the properties
(`Properties.ofList_entries`).

**Properties, and resources, are read back from their texts without white space**
(`parse?_compact_toJson`).
-/

namespace ResourceOrder

namespace Json

theorem mapM_of_forall_eq_some {α β : Type} {f : α → Option β} {g : β → α} {bs : List β}
    (h : ∀ b ∈ bs, f (g b) = some b) : (bs.map g).mapM f = some bs := by
  induction bs with
  | nil => rfl
  | cons b bs ih =>
    rw [List.map_cons, List.mapM_cons, h b (List.mem_cons_self ..),
      ih fun x hx => h x (List.mem_cons_of_mem _ hx)]
    rfl

theorem strings?_strings (items : List String) : (strings items).strings? = some items :=
  mapM_of_forall_eq_some fun _ _ => rfl

theorem textual_strings (items : List String) : Textual (strings items) := by
  refine .array fun j hj => ?_
  obtain ⟨s, -, rfl⟩ := List.mem_map.1 hj
  exact .string s

end Json

open Json

namespace Manifest

/-! ## properties -/

theorem PropertyValue.ofJson?_toJson (v : PropertyValue) : ofJson? v.toJson = some v := by
  cases v with
  | scalar s => rfl
  | list items =>
    show (Json.strings items).strings?.map PropertyValue.list = some (.list items)
    rw [strings?_strings, Option.map_some]

theorem PropertyValue.textual_toJson (v : PropertyValue) : Textual v.toJson := by
  cases v with
  | scalar s => exact .string s
  | list items => exact textual_strings items

/-- a name behind all others is put at the end -/
theorem Entries.put_of_forall_lt {key : String} {es : Entries} (h : ∀ e ∈ es, e.1 < key)
    (value : PropertyValue) : put key value es = es ++ [(key, value)] := by
  induction es with
  | nil => rfl
  | cons e es ih =>
    have hlt : e.1 < key := h e (List.mem_cons_self ..)
    have hrest := ih fun x hx => h x (List.mem_cons_of_mem _ hx)
    rw [put, if_neg (String.lt_asymm hlt), if_neg fun he => String.lt_irrefl _ (he ▸ hlt), hrest]
    rfl

/-- entries in order that follow those that are there are put behind them, one after the other -/
theorem Properties.entries_writes (writes : Entries) : ∀ p : Properties,
    Entries.Sorted (p.entries ++ writes) →
      (writes.foldl (fun p w => p.insert w.1 w.2) p).entries = p.entries ++ writes := by
  induction writes with
  | nil =>
    intro p _
    exact (List.append_nil _).symm
  | cons w ws ih =>
    intro p h
    have hlt : ∀ e ∈ p.entries, e.1 < w.1 := fun e he =>
      (List.pairwise_append.1 h).2.2 e he w (List.mem_cons_self ..)
    have hput : (p.insert w.1 w.2).entries = p.entries ++ [w] := Entries.put_of_forall_lt hlt w.2
    rw [List.append_cons] at h ⊢
    rw [List.foldl_cons, ih _ (hput ▸ h), hput]

theorem Properties.ofList_entries (p : Properties) : ofList p.entries = p := by
  have h : (ofList p.entries).entries = p.entries := entries_writes p.entries empty p.sorted
  cases p with
  | mk es hes => exact (Properties.mk.injEq ..).mpr h

theorem Properties.ofJson?_toJson (p : Properties) : ofJson? p.toJson = some p := by
  have h : (p.entries.map fun e => (e.1, e.2.toJson)).mapM
      (fun m => (PropertyValue.ofJson? m.2).map (m.1, ·)) = some p.entries :=
    mapM_of_forall_eq_some fun e _ => by
      show (PropertyValue.ofJson? e.2.toJson).map (e.1, ·) = some e
      rw [PropertyValue.ofJson?_toJson, Option.map_some]
  rw [toJson, ofJson?, h, Option.map_some, ofList_entries]

theorem Properties.textual_toJson (p : Properties) : Textual p.toJson := by
  refine .object fun m hm => ?_
  obtain ⟨e, -, rfl⟩ := List.mem_map.1 hm
  exact e.2.textual_toJson

end Manifest

/-! ## resources -/

theorem Resource.ofJson?_toJson (r : Resource) : ofJson? r.toJson = some r := by
  show (do return ⟨← (Json.string r.name).string?, ← (Json.strings r.requires).strings?,
    ← (Json.string r.provides).string?⟩ : Option Resource) = some r
  rw [strings?_strings]
  rfl

theorem Resource.textual_toJson (r : Resource) : Textual r.toJson := by
  refine .object fun m hm => ?_
  simp only [List.mem_cons, List.not_mem_nil, or_false] at hm
  rcases hm with rfl | rfl | rfl
  · exact .string r.name
  · exact textual_strings r.requires
  · exact .string r.provides

/-! ## texts -/

/-- **properties, with the shapes of their values, and resources, with what they require, are read
back from their texts** -/
theorem parse?_compact_toJson :
    (∀ p : Manifest.Properties,
      (parse? p.toJson.compact.toList).bind Manifest.Properties.ofJson? = some p) ∧
    ∀ r : Resource, (parse? r.toJson.compact.toList).bind Resource.ofJson? = some r := by
  refine ⟨fun p => ?_, fun r => ?_⟩
  · rw [parse?_compact p.textual_toJson]
    exact p.ofJson?_toJson
  · rw [parse?_compact r.textual_toJson]
    exact r.ofJson?_toJson

end ResourceOrder
