import ConcurrentServers.Library.Text

/-!
# Responses of the HTTP protocol

A response as a value, its text, and a reader that takes the text apart: a status
line, fields up to a blank line, and the body behind it. The reader gives back a
response of which no part contains the delimiter that ends it.
-/

namespace Systems.Http

open Systems.Text

def cr : UInt8 := '\r'.toUInt8

def lf : UInt8 := '\n'.toUInt8

def colon : UInt8 := ':'.toUInt8

def space : UInt8 := ' '.toUInt8

def version : List UInt8 := ascii "HTTP/1.1 "

structure Field where
  name : List UInt8
  value : List UInt8
  deriving DecidableEq

structure Response where
  status : List UInt8
  fields : List Field
  body : List UInt8
  deriving DecidableEq

/-! ## The text -/

def line (xs : List UInt8) : List UInt8 := xs ++ [cr, lf]

def Field.text (f : Field) : List UInt8 := f.name ++ [colon, space] ++ f.value

def Response.text (r : Response) : List UInt8 :=
  line (version ++ r.status) ++ r.fields.flatMap (fun f => line f.text) ++ line [] ++ r.body

@[simp] theorem length_line (xs : List UInt8) : (line xs).length = xs.length + 2 := by
  simp [line]

/-! ## The reader -/

def readLine (bs : List UInt8) : Option (List UInt8 × List UInt8) :=
  (cut lf bs).bind fun r =>
    if r.1.getLast? = some cr then some (r.1.dropLast, r.2) else none

def readField (bs : List UInt8) : Option Field :=
  (cut colon bs).bind fun r =>
    if r.2.head? = some space then some ⟨r.1, r.2.tail⟩ else none

/-- The fields up to the blank line, at most `n - 1` of them, and what follows. -/
def readFields : ℕ → List UInt8 → Option (List Field × List UInt8)
  | 0, _ => none
  | n + 1, bs =>
      (readLine bs).bind fun r =>
        if r.1 = [] then some ([], r.2)
        else
          (readField r.1).bind fun f =>
            (readFields n r.2).map fun s => (f :: s.1, s.2)

def parse (bs : List UInt8) : Option Response :=
  (readLine bs).bind fun r =>
    if version.isPrefixOf r.1 then
      (readFields r.2.length r.2).map fun s => ⟨r.1.drop version.length, s.1, s.2⟩
    else none

/-- The number of bytes that the response announces. -/
def Response.contentLength (r : Response) : Option ℕ :=
  (r.fields.find? fun f => f.name = ascii "Content-Length").bind fun f => parseNat f.value

/-! ## The round trip -/

structure Field.WellFormed (f : Field) : Prop where
  colon_notMem : colon ∉ f.name
  lf_notMem_name : lf ∉ f.name
  lf_notMem_value : lf ∉ f.value

structure Response.WellFormed (r : Response) : Prop where
  lf_notMem : lf ∉ r.status
  fields : ∀ f ∈ r.fields, f.WellFormed

theorem readLine_line {xs : List UInt8} (h : lf ∉ xs) (rest : List UInt8) :
    readLine (line xs ++ rest) = some (xs, rest) := by
  have hsplit : line xs ++ rest = (xs ++ [cr]) ++ lf :: rest := by simp [line]
  have hnot : lf ∉ xs ++ [cr] := by
    rw [List.mem_append, not_or]
    exact ⟨h, by decide⟩
  rw [readLine, hsplit, cut_append hnot]
  simp

theorem readField_text {f : Field} (h : f.WellFormed) : readField f.text = some f := by
  have hsplit : f.text = f.name ++ colon :: space :: f.value := by simp [Field.text]
  rw [readField, hsplit, cut_append h.colon_notMem]
  rfl

theorem Field.WellFormed.lf_notMem_text {f : Field} (h : f.WellFormed) : lf ∉ f.text := by
  simp only [Field.text, List.mem_append, not_or]
  exact ⟨⟨h.lf_notMem_name, by decide⟩, h.lf_notMem_value⟩

theorem Field.text_ne_nil (f : Field) : f.text ≠ [] := by simp [Field.text]

theorem readFields_text {fields : List Field} (h : ∀ f ∈ fields, f.WellFormed)
    (body : List UInt8) {n : ℕ} (hn : fields.length < n) :
    readFields n (fields.flatMap (fun f => line f.text) ++ line [] ++ body) =
      some (fields, body) := by
  -- No field can be taken for the blank line, since its text is not empty.
  induction fields generalizing n with
  | nil =>
      obtain ⟨n, rfl⟩ := Nat.exists_eq_succ_of_ne_zero (Nat.ne_of_gt hn)
      rw [List.flatMap_nil, List.nil_append, readFields, readLine_line (by simp)]
      rfl
  | cons f fields ih =>
      obtain ⟨n, rfl⟩ := Nat.exists_eq_succ_of_ne_zero (Nat.ne_of_gt (Nat.zero_lt_of_lt hn))
      obtain ⟨hf, hfields⟩ := List.forall_mem_cons.mp h
      rw [List.flatMap_cons, List.append_assoc, List.append_assoc, readFields,
        readLine_line hf.lf_notMem_text, Option.bind_some, if_neg f.text_ne_nil,
        readField_text hf, Option.bind_some, ← List.append_assoc,
        ih hfields (Nat.lt_of_succ_lt_succ hn), Option.map_some]

theorem length_le_length_flatMap (fields : List Field) :
    fields.length ≤ (fields.flatMap fun f => line f.text).length := by
  induction fields with
  | nil => exact le_refl 0
  | cons f fields ih =>
      rw [List.flatMap_cons, List.length_append, List.length_cons, length_line]
      omega

theorem parse_text {r : Response} (h : r.WellFormed) : parse r.text = some r := by
  have hstatus : lf ∉ version ++ r.status := by
    rw [List.mem_append, not_or]
    exact ⟨by decide, h.lf_notMem⟩
  have hversion : version.isPrefixOf (version ++ r.status) = true :=
    List.isPrefixOf_iff_prefix.mpr (List.prefix_append _ _)
  have hlength : r.fields.length <
      (r.fields.flatMap (fun f => line f.text) ++ line [] ++ r.body).length := by
    have hle := length_le_length_flatMap r.fields
    simp only [List.length_append, length_line]
    omega
  rw [parse, Response.text, List.append_assoc, List.append_assoc, readLine_line hstatus,
    Option.bind_some, if_pos hversion, ← List.append_assoc,
    readFields_text h.fields r.body hlength, Option.map_some, List.drop_left]

end Systems.Http
