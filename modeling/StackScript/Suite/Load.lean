import StackScript.Suite.Files
import StackScript.Yaml.Meaning

/-!
# Suites from files

A suite is a document with fields for its name, its setup and its cases. Fields
with other names are passed over.

## Main definitions

* `Suite.decode`: the suite in a text.
* `Suite.load`: the suites in a directory.
-/

namespace StackScript

/-- Give the text of a field to a value, unless the field stands for nothing. -/
def Yaml.Node.giveText? {α : Type} (node : Yaml.Node) (x : α) (f : Bytes → α) : Option α :=
  node.text?.map fun
    | some s => f s
    | none => x

namespace Expectation

/-- Nothing in particular is expected. -/
def empty : Expectation := ⟨none, [], [], none⟩

/-- The expectation with the given fields. Fields with other names are passed over. -/
def ofFields? (x : Expectation) : List (Bytes × Yaml.Node) → Option Expectation
  | [] => some x
  | (key, node) :: rest =>
    if key = Bytes.ofString "value" then
      node.text?.bind fun s => ofFields? { x with value := s } rest
    else if key = Bytes.ofString "type" then
      (node.giveText? x fun s => { x with type := s }).bind fun x => ofFields? x rest
    else if key = Bytes.ofString "error" then
      (node.giveText? x fun s => { x with error := s }).bind fun x => ofFields? x rest
    else if key = Bytes.ofString "output" then
      node.text?.bind fun s => ofFields? { x with output := s } rest
    else ofFields? x rest

end Expectation

namespace Case

/-- A case in which nothing is given. -/
def empty : Case := ⟨[], none, [], [], .empty⟩

/-- Why a case is skipped: a truth value says whether it is, a text gives the reason, and anything else
does not skip it. -/
def skipOf : Option (Yaml.Meaning × Bytes) → Option Bytes
  | some (.boolean true, _) => some "skipped"
  | some (.text, s) => some s
  | _ => none

/-- The case with the given fields. -/
def ofFields? (c : Case) : List (Bytes × Yaml.Node) → Option Case
  | [] => some c
  | (key, node) :: rest =>
    if key = Bytes.ofString "name" then
      (node.giveText? c fun s => { c with name := s }).bind fun c => ofFields? c rest
    else if key = Bytes.ofString "description" then
      node.text?.bind fun _ => ofFields? c rest
    else if key = Bytes.ofString "skip" then
      node.any?.bind fun m => ofFields? { c with skip := skipOf m } rest
    else if key = Bytes.ofString "code" then
      (node.giveText? c fun s => { c with code := s }).bind fun c => ofFields? c rest
    else if key = Bytes.ofString "steps" then
      node.texts?.bind fun steps => ofFields? { c with steps := steps } rest
    else if key = Bytes.ofString "expect" then
      (node.fields?.bind c.expect.ofFields?).bind fun x => ofFields? { c with expect := x } rest
    else ofFields? c rest

/-- The case in a node. -/
def ofNode? (node : Yaml.Node) : Option Case := node.fields?.bind Case.empty.ofFields?

end Case

namespace Suite

/-- The suite with the given fields. -/
def ofFields? (s : Suite) : List (Bytes × Yaml.Node) → Option Suite
  | [] => some s
  | (key, node) :: rest =>
    if key = Bytes.ofString "name" then
      (node.giveText? s fun name => { s with name := name }).bind fun s => ofFields? s rest
    else if key = Bytes.ofString "description" then
      node.text?.bind fun _ => ofFields? s rest
    else if key = Bytes.ofString "setup" then
      node.texts?.bind fun setup => ofFields? { s with setup := setup } rest
    else if key = Bytes.ofString "tests" then
      (node.list?.bind fun items => (items.filter (!·.isNull)).mapM Case.ofNode?).bind fun cases =>
        ofFields? { s with cases := cases } rest
    else ofFields? s rest

/-- The suite in a document. -/
def ofNode? (node : Yaml.Node) : Option Suite := node.fields?.bind fun fields => ofFields? ⟨[], [], []⟩ fields

/-- The suite in a text. -/
def decode (content : Bytes) : Option Suite := (Yaml.parse? content).bind ofNode?

/-- The suites in a directory, each with the name of its file. -/
def load (files : Files) (directory : Bytes) : Except LoadError (List (Bytes × Suite)) :=
  loadWith decode files directory

end Suite

end StackScript
