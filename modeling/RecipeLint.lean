import RecipeLint.Main
import RecipeLint.Syntax.Summary
import RecipeLint.Proofs.Batches
import RecipeLint.Proofs.Brackets
import RecipeLint.Proofs.Credits
import RecipeLint.Proofs.HereDocuments
import RecipeLint.Proofs.Hollow
import RecipeLint.Proofs.Inversions
import RecipeLint.Proofs.Layers
import RecipeLint.Proofs.Listing
import RecipeLint.Proofs.Messages
import RecipeLint.Proofs.Reserved
import RecipeLint.Proofs.Variables
import RecipeLint.Proofs.Lexemes
import RecipeLint.Proofs.Cursors
import RecipeLint.Proofs.Visits
import RecipeLint.Proofs.Classification
import RecipeLint.Proofs.Constituents
import RecipeLint.Proofs.Patterns
