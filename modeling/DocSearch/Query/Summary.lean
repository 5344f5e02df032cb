import DocSearch.Query

/-!
# Summaries

The summary of a query names its collection, counts the nodes of its criteria and its sort keys, and gives its
page.
-/

namespace DocSearch

namespace Query

def pageSummary (q : Query) : Text :=
  match q.limit with
  | none => ascii " pagination=none"
  | some limit =>
    ascii " skip=" ++ Decimal.ofNat q.offset.toNat ++ ascii " limit=" ++ Decimal.ofNat limit.toNat

def summary (q : Query) : Text :=
  ascii "collection=" ++ q.collection.getD (ascii "*") ++
    ascii " leaves=" ++ Decimal.ofNat q.leaves ++
    ascii " composites=" ++ Decimal.ofNat q.composites ++
    ascii " sort_keys=" ++ Decimal.ofNat q.sortKeys.length ++ q.pageSummary

end Query

end DocSearch
