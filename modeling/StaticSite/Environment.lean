import StaticSite.Content

namespace StaticSite

abbrev Environment := List Char → Option Content

def Environment.text? (env : Environment) (name : List Char) : Option (List Char) :=
  match env name with
  | some (.text v) => some v
  | _ => none

end StaticSite
