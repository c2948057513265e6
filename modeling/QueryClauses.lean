import QueryClauses.Spec.File
import QueryClauses.Proofs.Filter.Reading
import QueryClauses.Proofs.Filter.Concatenation
import QueryClauses.Proofs.Filter.Roles
import QueryClauses.Proofs.Filter.Optionals
import QueryClauses.Proofs.Filter.Parameter
import QueryClauses.Proofs.Projection.Attachment
import QueryClauses.Proofs.Projection.Dependence
import QueryClauses.Proofs.Projection.Scope
import QueryClauses.Proofs.Projection.Sources
import QueryClauses.Proofs.Spec.Construction
import QueryClauses.Proofs.Spec.Json
import QueryClauses.Proofs.Spec.Toml
import QueryClauses.Proofs.TimeFormat.Reading
import QueryClauses.Proofs.TimeFormat.Order
import QueryClauses.Proofs.Filter.Directives
import QueryClauses.Proofs.Projection.Walks
