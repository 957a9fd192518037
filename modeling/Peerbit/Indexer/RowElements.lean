import Peerbit.Indexer.RowColumns
import Peerbit.Lib.Results

/-!
# How stored rows are seen

A row of a vector is seen as an object, of a JSON text or of a statement.  Both
have the index of the row, its id, and a value for each of its columns.
-/

namespace Peerbit
namespace Sqlite

open Lib.RowTrees
open Lib.Results

/-! ### Values -/

theorem SqlValue.Reads.sql_eq {value : SqlValue} {s : Scalar}
    (h : value.Reads s) : s.sql = value := by
  cases value with
  | null => cases s <;> first | rfl | cases h
  | integer n => rcases h with rfl | rfl <;> rfl
  | text t =>
      obtain rfl := h
      rfl
  | blob b =>
      obtain rfl := h
      rfl

theorem hexValue_hexDigit {n : Nat} (h : n < 16) :
    hexValue (hexDigit n) = some n := by
  interval_cases n <;> rfl

/-- Bytes are read from their hexadecimal text. -/
theorem fromHex_hex (bytes : List UInt8) : fromHex (hex bytes) = .ok bytes := by
  induction bytes with
  | nil => rfl
  | cons byte bytes ih =>
      have hbyte : byte.toNat < 256 := byte.toNat_lt
      have htext : hex (byte :: bytes) =
          hexDigit (byte.toNat / 16) :: hexDigit (byte.toNat % 16) ::
            hex bytes := rfl
      have hdigits : 16 * (byte.toNat / 16) + byte.toNat % 16 = byte.toNat := by
        omega
      rw [htext]
      unfold fromHex
      rw [hexValue_hexDigit (by omega), hexValue_hexDigit (by omega), ih]
      simp only [hdigits, UInt8.ofNat_toNat]

/-- The value of a property of a JSON object once it is converted. -/
def jsonRead (field : SQLField) (value : SqlValue) : Scalar :=
  if field.unwrappedType = some .u64 ∨ field.type = "BLOB" then value.read
  else jsonValue field value

theorem reads_jsonRead {field : SQLField} {value : SqlValue}
    (h : field.Stores value) : value.Reads (jsonRead field value) := by
  unfold jsonRead
  split
  · exact value.reads_read
  · rename_i hplain
    obtain ⟨hu64, hblob⟩ := not_or.mp hplain
    unfold jsonValue
    rw [if_neg hu64, if_neg hblob]
    cases value with
    | null => rfl
    | integer n => exact .inl rfl
    | text s => rfl
    | blob b => exact absurd h.2 hblob

theorem convertProperty_json {fields : List SQLField} {field : SQLField}
    {value : SqlValue}
    (hfind : fields.find? (fun f => f.name == field.name) = some field)
    (h : field.Stores value)
    (hcomplete : field.unwrappedType = some .u64 ∨ field.type = "BLOB" →
      value ≠ .null) :
    convertProperty fields (field.name, jsonValue field value) =
      .ok (field.name, jsonRead field value) := by
  unfold convertProperty jsonRead jsonValue
  rw [hfind]
  by_cases hu64 : field.unwrappedType = some .u64
  · simp only [hu64, if_true, true_or]
    cases value with
    | null => exact absurd rfl (hcomplete (.inl hu64))
    | integer n => simp [bigInt, Int.toInt?_repr, SqlValue.read]
    | text s => exact absurd hu64 h.1
    | blob b => exact absurd hu64 h.1
  · by_cases hblob : field.type = "BLOB"
    · simp only [hu64, hblob, if_true, if_false, or_true]
      cases value with
      | null => exact absurd rfl (hcomplete (.inr hblob))
      | integer n => exact absurd hblob h
      | text s => exact absurd hblob h.2
      | blob b =>
          simp [fromHexString, fromHex_hex, SqlValue.read, Except.map]
    · simp only [hu64, hblob, if_false, or_self]

/-! ### Rows as objects -/

theorem lookup_map (cells : List (SQLField × SqlValue))
    (f : SQLField → SqlValue → Scalar) (name : String) :
    (cells.map fun cell => (cell.1.name, f cell.1 cell.2)).lookup name =
      (cells.find? (fun cell => cell.1.name == name)).map
        (fun cell => f cell.1 cell.2) := by
  induction cells with
  | nil => rfl
  | cons cell cells ih =>
      rw [List.map_cons, List.lookup_cons, List.find?_cons, ih]
      by_cases hname : cell.1.name = name
      · simp [hname]
      · have hne : (name == cell.1.name) = false :=
          beq_false_of_ne (Ne.symm hname)
        rw [hne, beq_false_of_ne hname]

/-- An object that shows a row. -/
structure InsertCall.Shows (call : InsertCall)
    (properties : List (String × Scalar)) : Prop where
  id : call.id.sql.Reads ((properties.lookup CHILD_TABLE_ID).getD .undefined)
  index : ∀ index : Nat, call.index = some index →
    (SqlValue.integer index).Reads
      ((properties.lookup ARRAY_INDEX_COLUMN).getD .undefined)
  column : ∀ column ∈ call.table.columns, (column.valueIn call.obj).Reads
    ((properties.lookup column.name).getD .undefined)

theorem lookup_object (row : DbRow) (name : String) :
    row.object.lookup name = (row.cell name).map SqlValue.read := by
  unfold DbRow.object DbRow.cell
  rw [lookup_map row.cells (fun _ value => value.read), Option.map_map]
  rfl

theorem InsertCall.shows_object {tables : List Table} {call : InsertCall}
    (h : call.Sound tables) (hchild : call.Child) :
    call.Shows call.row.object where
  id := by
    rw [lookup_object, hchild.idCell]
    exact SqlValue.reads_read _
  index := by
    intro index hindex
    rw [lookup_object, hchild.indexCell index hindex]
    exact SqlValue.reads_read _
  column := by
    intro column hcolumn
    rw [lookup_object, h.cell column hcolumn]
    exact SqlValue.reads_read _

theorem InsertCall.cells_fields {call : InsertCall} (hruns : call.runs = true) :
    call.row.cells.map Prod.fst = call.table.fields := by
  have hlength : call.values.length = call.table.fields.length := by
    unfold InsertCall.runs at hruns
    rw [Bool.and_eq_true, beq_iff_eq] at hruns
    exact hruns.1
  have hfst : ∀ cell : SQLField × SqlValue,
      (if some cell.1.name = call.table.primary ∧ cell.2 = .null then
        (cell.1, call.id.sql) else cell).1 = cell.1 := by
    intro cell
    split <;> rfl
  unfold InsertCall.row
  simp only [List.map_map]
  calc (call.table.fields.zip (call.values.map Scalar.sql)).map _
      = (call.table.fields.zip (call.values.map Scalar.sql)).map Prod.fst :=
        List.map_congr_left fun cell _ => hfst cell
    _ = call.table.fields := by
        rw [List.map_fst_zip]
        simp [hlength]

/-- What a cell holds. -/
theorem InsertCall.find?_cell {call : InsertCall} (hruns : call.runs = true)
    (hnames : call.table.NamesColumns) {cell : SQLField × SqlValue}
    (h : cell ∈ call.row.cells) :
    call.row.cells.find? (fun c => c.1.name == cell.1.name) = some cell := by
  have hzip : call.row.cells =
      call.table.fields.zip (call.row.cells.map Prod.snd) :=
    List.zip_of_prod (InsertCall.cells_fields hruns) rfl
  rw [hzip] at h ⊢
  exact find?_zip hnames h

theorem InsertCall.cell_eq {tables : List Table} {call : InsertCall}
    (h : call.Sound tables) (hchild : call.Child)
    {cell : SQLField × SqlValue} (hcell : cell ∈ call.row.cells) :
    call.row.cell cell.1.name = some cell.2 := by
  unfold DbRow.cell
  rw [InsertCall.find?_cell h.order.1 hchild.names hcell]
  rfl

theorem InsertCall.mem_fields {tables : List Table} {call : InsertCall}
    (h : call.Sound tables) {cell : SQLField × SqlValue}
    (hcell : cell ∈ call.row.cells) : cell.1 ∈ call.table.fields := by
  rw [← InsertCall.cells_fields h.order.1]
  exact List.mem_map_of_mem hcell

theorem InsertCall.Child.stores {tables : List Table} {call : InsertCall}
    (h : call.Sound tables) (hchild : call.Child)
    {cell : SQLField × SqlValue} (hcell : cell ∈ call.row.cells)
    (hparent : cell.1.name ≠ PARENT_TABLE_ID) : cell.1.Stores cell.2 := by
  have hfind := InsertCall.cell_eq h hchild hcell
  rcases hchild.join cell.1 (InsertCall.mem_fields h hcell) with
    hcolumn | hname | ⟨-, htype, n, hn⟩
  · have hvalue := h.cell cell.1 hcolumn
    rw [hfind] at hvalue
    rw [Option.some.inj hvalue]
    exact hchild.typed cell.1 hcolumn
  · exact absurd hname hparent
  · rw [hfind] at hn
    rw [Option.some.inj hn]
    exact htype

theorem lookup_json (row : DbRow) (f : SQLField → SqlValue → Scalar)
    {name : String} (h : name ≠ PARENT_TABLE_ID) :
    ((row.cells.filter (fun cell => cell.1.name != PARENT_TABLE_ID)).map
        fun cell => (cell.1.name, f cell.1 cell.2)).lookup name =
      (row.cells.find? (fun cell => cell.1.name == name)).map
        (fun cell => f cell.1 cell.2) := by
  rw [lookup_map]
  congr 1
  induction row.cells with
  | nil => rfl
  | cons cell cells ih =>
      rw [List.find?_cons, List.filter_cons]
      by_cases hname : cell.1.name = name
      · simp [hname, h]
      · rw [beq_false_of_ne hname]
        split
        · rw [List.find?_cons, beq_false_of_ne hname]
          exact ih
        · exact ih

/-- A row whose 64 bit integers and bytes are there. -/
def InsertCall.Complete (call : InsertCall) : Prop :=
  ∀ column ∈ call.table.columns,
    column.unwrappedType = some .u64 ∨ column.type = "BLOB" →
      column.valueIn call.obj ≠ .null

theorem InsertCall.Complete.not_null {tables : List Table} {call : InsertCall}
    (hcomplete : call.Complete) (h : call.Sound tables) (hchild : call.Child)
    {cell : SQLField × SqlValue} (hcell : cell ∈ call.row.cells)
    (hparent : cell.1.name ≠ PARENT_TABLE_ID)
    (htype : cell.1.unwrappedType = some .u64 ∨ cell.1.type = "BLOB") :
    cell.2 ≠ .null := by
  have hfind := InsertCall.cell_eq h hchild hcell
  rcases hchild.join cell.1 (InsertCall.mem_fields h hcell) with
    hcolumn | hname | ⟨hnone, hblob, -⟩
  · have hvalue := h.cell cell.1 hcolumn
    rw [hfind] at hvalue
    rw [Option.some.inj hvalue]
    exact hcomplete cell.1 hcolumn htype
  · exact absurd hname hparent
  · rcases htype with hu64 | htype
    · rw [hnone] at hu64
      cases hu64
    · exact absurd htype hblob

theorem jsonValue_integer (field : SQLField) (n : Int) :
    (jsonValue field (.integer n)).isNull = false := by
  unfold jsonValue
  split
  · rfl
  · split <;> rfl

/-- A JSON object has the id of its row. -/
theorem InsertCall.id_json {call : InsertCall} (hchild : call.Child) :
    ((call.row.jsonObject.lookup CHILD_TABLE_ID).getD .undefined).isNull =
      false := by
  obtain ⟨n, hn⟩ := hchild.id
  have hcell := hchild.idCell
  obtain ⟨cell, hfind, hvalue⟩ := Option.map_eq_some_iff.mp hcell
  have hinteger : cell.2 = .integer n := by
    rw [hvalue, hn]
    rfl
  unfold DbRow.jsonObject
  rw [lookup_json _ _ (by decide), hfind, Option.map_some, Option.getD_some,
    hinteger]
  exact jsonValue_integer cell.1 n

/-- What is made of the JSON object of a row. -/
theorem InsertCall.shows_json {tables : List Table} {call : InsertCall}
    (h : call.Sound tables) (hchild : call.Child)
    (hcomplete : call.Complete) :
    ∃ properties,
      call.row.jsonObject.mapM (convertProperty call.table.fields) =
        .ok properties ∧ call.Shows properties := by
  have hreads : ∀ name value, call.row.cell name = some value →
      name ≠ PARENT_TABLE_ID →
      value.Reads ((((call.row.cells.filter
        (fun cell => cell.1.name != PARENT_TABLE_ID)).map
          fun cell => (cell.1.name, jsonRead cell.1 cell.2)).lookup name).getD
            .undefined) := by
    intro name value hcell hname
    obtain ⟨cell, hfind, rfl⟩ := Option.map_eq_some_iff.mp hcell
    have hsame : cell.1.name = name := by
      simpa using List.find?_some hfind
    rw [lookup_json _ _ hname, hfind]
    exact reads_jsonRead
      (hchild.stores h (List.mem_of_find?_eq_some hfind) (hsame ▸ hname))
  refine ⟨_, mapM_map (k := fun cell => (cell.1.name, jsonRead cell.1 cell.2))
    ?_, { id := ?id, index := ?index, column := ?column }⟩
  · intro cell hcell
    obtain ⟨hcell, hname⟩ := List.mem_filter.mp hcell
    have hparent : cell.1.name ≠ PARENT_TABLE_ID := by simpa using hname
    have hfind : call.table.fields.find? (fun f => f.name == cell.1.name) =
        some cell.1 :=
      find?_of_nodup hchild.names (InsertCall.mem_fields h hcell)
    exact convertProperty_json hfind (hchild.stores h hcell hparent)
      (hcomplete.not_null h hchild hcell hparent)
  case id => exact hreads _ _ hchild.idCell (by decide)
  case index =>
    intro index hindex
    exact hreads _ _ (hchild.indexCell index hindex) (by decide)
  case column =>
    intro column hcolumn
    exact hreads _ _ (h.cell column hcolumn) (hchild.apart column hcolumn)

end Sqlite
end Peerbit
