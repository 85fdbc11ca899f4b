import Beamline.Json.Pointer
import Beamline.Proofs.Decimal.Numeral
import Beamline.Proofs.Json.Reader

/-!
# Pointers read back

* `unescape_escape` : the written form of a key stands for the key;
* `parse?_text`, `text_injective` : the text of a pointer spells the pointer and no other;
* `Covers` : a text names a place or something below it;
* `resolve?_append`, `itemAt?_index` : the value that a pointer names, part by part;
* `Json.Distinct` : the names in every object of a value are distinct, as in all that is read.
-/

namespace Beamline

namespace Pointer

/-! ## Keys -/

theorem unescapeChars_cons {c : Char} (hc : c ≠ '~') (cs : List Char) :
    unescapeChars (c :: cs) = c :: unescapeChars cs := by
  conv_lhs => unfold unescapeChars
  split <;> simp_all

theorem unescapeChars_escapeChars (cs : List Char) : unescapeChars (escapeChars cs) = cs := by
  induction cs with
  | nil => rfl
  | cons c cs ih =>
    unfold escapeChars at ih ⊢
    rw [List.flatMap_cons]
    split_ifs with htilde hslash
    · simp [unescapeChars, ih, htilde]
    · simp [unescapeChars, ih, hslash]
    · rw [List.singleton_append, unescapeChars_cons htilde, ih]

/-- The written form of a key stands for the key. -/
theorem unescape_escape (key : String) : unescape (escape key) = key := by
  rw [unescape, escape, String.toList_ofList, unescapeChars_escapeChars, String.ofList_toList]

theorem slash_notMem_escapeChars (cs : List Char) : '/' ∉ escapeChars cs := by
  unfold escapeChars
  rw [List.mem_flatMap]
  rintro ⟨c, -, hc⟩
  split_ifs at hc with htilde hslash
  · simp at hc
  · simp at hc
  · exact hslash (List.mem_singleton.1 hc).symm

/-! ## Texts -/

theorem toList_text_cons (key : String) (p : Pointer) :
    (text (key :: p)).toList = '/' :: (escapeChars key.toList ++ (text p).toList) := by
  simp [text, escape, String.toList_append]

theorem text_append (p q : Pointer) : text (p ++ q) = text p ++ text q := by
  induction p with
  | nil => simp [text]
  | cons key p ih => rw [List.cons_append, text, text, ih, String.append_assoc, String.append_assoc,
      String.append_assoc]

theorem segments_of_notMem {cs : List Char} (h : '/' ∉ cs) : segments cs = [cs] := by
  induction cs with
  | nil => rfl
  | cons c cs ih =>
    rw [List.mem_cons, not_or] at h
    rw [segments, if_neg (Ne.symm h.1), ih h.2]

theorem segments_append {cs : List Char} (h : '/' ∉ cs) (rest : List Char) :
    segments (cs ++ '/' :: rest) = cs :: segments rest := by
  induction cs with
  | nil => rfl
  | cons c cs ih =>
    rw [List.mem_cons, not_or] at h
    rw [List.cons_append, segments, if_neg (Ne.symm h.1), ih h.2]

/-- Between the slashes of its text stand the written keys of a pointer. -/
theorem segments_text (key : String) (p : Pointer) :
    segments (escapeChars key.toList ++ (text p).toList) =
      (key :: p).map fun key => escapeChars key.toList := by
  induction p generalizing key with
  | nil =>
    rw [text, String.toList_empty, List.append_nil]
    exact segments_of_notMem (slash_notMem_escapeChars _)
  | cons next p ih =>
    rw [toList_text_cons, segments_append (slash_notMem_escapeChars _), ih]
    rfl

/-- The text of a pointer spells the pointer. -/
theorem parse?_text (p : Pointer) : parse? (text p) = some p := by
  cases p with
  | nil => rfl
  | cons key p =>
    unfold parse?
    rw [toList_text_cons]
    simp only [segments_text, List.map_map]
    congr 1
    conv_rhs => rw [← List.map_id (key :: p)]
    refine List.map_congr_left fun k _ => ?_
    show String.ofList (unescapeChars (escapeChars k.toList)) = k
    rw [unescapeChars_escapeChars, String.ofList_toList]

/-- Different pointers have different texts. -/
theorem text_injective : Function.Injective text := by
  intro p q h
  have := congrArg parse? h
  rwa [parse?_text, parse?_text, Option.some.injEq] at this

/-- The text names the place, or something below it. -/
def Covers (place : Pointer) (path : String) : Prop :=
  path = place.text ∨ ∃ rest, path = place.text ++ "/" ++ rest

theorem covers_append (place p : Pointer) : Covers place (place ++ p).text := by
  cases p with
  | nil => exact .inl (by rw [List.append_nil])
  | cons key p =>
    refine .inr ⟨escape key ++ text p, ?_⟩
    rw [text_append, text, String.append_assoc, String.append_assoc]

/-! ## Places -/

theorem resolve?_cons (v : Json) (key : String) (p : Pointer) :
    resolve? v (key :: p) = (step? v key).bind (resolve? · p) :=
  rfl

/-- A pointer is followed part by part. -/
theorem resolve?_append (p q : Pointer) (v : Json) :
    resolve? v (p ++ q) = (resolve? v p).bind (resolve? · q) := by
  induction p generalizing v with
  | nil => rfl
  | cons key p ih =>
    rw [List.cons_append, resolve?_cons, resolve?_cons, Option.bind_assoc]
    exact congrArg _ (funext ih)

/-- The key of an index names the item with that index. -/
theorem itemAt?_index (items : List Json) (i : Nat) : itemAt? items (index i) = items[i]? := by
  have hdigits : (Decimal.digitsOfNat i).all Char.isDigit = true :=
    List.all_eq_true.2 fun c hc => Decimal.isDigit_of_mem_digitsOfNat hc
  have hempty : (Decimal.digitsOfNat i).isEmpty = false :=
    List.isEmpty_eq_false_iff.2 (Decimal.digitsOfNat_ne_nil i)
  have hlead : (Decimal.digitsOfNat i == ['0'] || (Decimal.digitsOfNat i).head? != some '0') =
      true := by
    by_cases hi : i = 0
    · rw [hi]
      rfl
    · rw [Bool.or_eq_true]
      exact .inr (bne_iff_ne.2 (Decimal.head_digitsOfNat hi))
  unfold itemAt? index
  simp only [String.toList_ofList]
  rw [hempty, hdigits, hlead, Decimal.natOfDigits_digitsOfNat]
  rfl

end Pointer

/-! ## Values with distinct names -/

/-- The names in every object of the value are distinct. -/
inductive Json.Distinct : Json → Prop where
  | null : Distinct .null
  | bool (b : Bool) : Distinct (.bool b)
  | num (n : Number) : Distinct (.num n)
  | str (s : String) : Distinct (.str s)
  | arr {items : List Json} : (∀ v ∈ items, Distinct v) → Distinct (.arr items)
  | obj {members : List (String × Json)} : (Table.keys members).Nodup →
    (∀ m ∈ members, Distinct m.2) → Distinct (.obj members)

theorem Json.Readable.distinct {room : Nat} {v : Json} (h : v.Readable room) : v.Distinct := by
  induction room generalizing v with
  | zero =>
    cases v with
    | arr items => exact h.elim
    | obj members => exact h.elim
    | _ => constructor
  | succ room ih =>
    cases v with
    | arr items => exact .arr fun v hv => ih (h v hv)
    | obj members => exact .obj h.1 fun m hm => ih (h.2 m hm)
    | _ => constructor

end Beamline
