import Mathlib.Data.List.Forall2
import Mathlib.Data.List.Basic

/-!
# Tables held column by column

A table grows by rows and is read by rows, but is stored as a list of columns. The
width is the number of columns; a table is rectangular when they all have one length.
-/

namespace ValkeyRdb

variable {α β : Type}

/-- One more row: every column gets the cell at its place. -/
def addRow (columns : List (List α)) (row : List α) : List (List α) :=
  List.zipWith (fun column cell => column ++ [cell]) columns row

/-- The first `n` rows of a table. -/
def rowsOf (n : Nat) (columns : List (List α)) : List (List α) :=
  (List.range n).map fun i => columns.filterMap fun column => column[i]?

def Rectangular (n : Nat) (columns : List (List α)) : Prop := ∀ column ∈ columns, column.length = n

/-- Every cell is one that the field of its column admits. -/
def Typed (admits : β → α → Prop) (fields : List β) (columns : List (List α)) : Prop :=
  List.Forall₂ (fun field column => ∀ cell ∈ column, admits field cell) fields columns

theorem addRow_append {as bs : List (List α)} {r s : List α} (h : as.length = r.length) :
    addRow as r ++ addRow bs s = addRow (as ++ bs) (r ++ s) :=
  (List.zipWith_append h).symm

theorem addRow_cons (column : List α) (columns : List (List α)) (cell : α) (row : List α) :
    addRow (column :: columns) (cell :: row) = (column ++ [cell]) :: addRow columns row := rfl

theorem Rectangular.addRow {n : Nat} {columns : List (List α)} (h : Rectangular n columns)
    (row : List α) : Rectangular (n + 1) (addRow columns row) := by
  induction columns generalizing row with
  | nil =>
    intro column hc
    simp [ValkeyRdb.addRow] at hc
  | cons c cs ih =>
    have hcs : Rectangular n cs := fun column hc => h column (List.mem_cons_of_mem _ hc)
    cases row with
    | nil =>
      intro column hc
      simp [ValkeyRdb.addRow] at hc
    | cons x xs =>
      intro column hc
      rw [addRow_cons] at hc
      rcases List.mem_cons.mp hc with rfl | hc
      · simp [h c List.mem_cons_self]
      · exact ih hcs xs column hc

/-- A row added to a rectangular table of its width is the new last row. -/
theorem rowsOf_addRow {n : Nat} {columns : List (List α)} (h : Rectangular n columns)
    {row : List α} (hw : columns.length = row.length) :
    rowsOf (n + 1) (addRow columns row) = rowsOf n columns ++ [row] := by
  have hold : ∀ i < n, (addRow columns row).filterMap (fun column => column[i]?) =
      columns.filterMap fun column => column[i]? := by
    intro i hi
    induction columns generalizing row with
    | nil => rfl
    | cons c cs ih =>
      cases row with
      | nil => cases hw
      | cons x xs =>
        have hc : c.length = n := h c List.mem_cons_self
        have hlt : i < c.length := by omega
        have hcs := ih (fun column hm => h column (List.mem_cons_of_mem _ hm)) (Nat.succ.inj hw)
        rw [addRow_cons, List.filterMap_cons, List.filterMap_cons, List.getElem?_append_left hlt, hcs]
  have hnew : (addRow columns row).filterMap (fun column => column[n]?) = row := by
    clear hold
    induction columns generalizing row with
    | nil => simpa [addRow] using (List.eq_nil_of_length_eq_zero hw.symm).symm
    | cons c cs ih =>
      cases row with
      | nil => cases hw
      | cons x xs =>
        have hc : c.length = n := h c List.mem_cons_self
        have hlast : (c ++ [x])[n]? = some x := by
          rw [← hc]
          exact List.getElem?_concat_length
        have hcs := ih (fun column hm => h column (List.mem_cons_of_mem _ hm)) (Nat.succ.inj hw)
        rw [addRow_cons, List.filterMap_cons, hlast, hcs]
  rw [rowsOf, List.range_succ, List.map_append, List.map_singleton, hnew]
  refine congrArg (· ++ [row]) (List.map_congr_left fun i hi => ?_)
  exact hold i (List.mem_range.mp hi)

theorem Typed.addRow {admits : β → α → Prop} {fields : List β} {columns : List (List α)}
    {row : List α} (h : Typed admits fields columns) (hr : List.Forall₂ admits fields row) :
    Typed admits fields (addRow columns row) := by
  induction h generalizing row with
  | nil =>
    cases hr
    exact .nil
  | cons hc _ ih =>
    cases hr with
    | cons hx hxs =>
      refine .cons (fun cell hm => ?_) (ih hxs)
      rcases List.mem_append.mp hm with hm | hm
      · exact hc cell hm
      · rw [List.mem_singleton.mp hm]
        exact hx

theorem Typed.empty (admits : β → α → Prop) (fields : List β) :
    Typed admits fields (List.replicate fields.length []) := by
  induction fields with
  | nil => exact .nil
  | cons f fs ih => exact .cons (by simp) ih

end ValkeyRdb
